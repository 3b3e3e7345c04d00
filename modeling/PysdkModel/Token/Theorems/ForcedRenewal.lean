import PysdkModel.Token.Theorems.RenewableBearer

-- A call with `OPTION_RENEW_REQUIRED` returns a token that the source gave out after the start of the call, unless it
-- waits for `_is_fresh` while this is still set from before, or the loop still has to hand over an earlier token.

namespace Aio

theorem Callers.not_servesRenewed {σ ρ δ : Type} {b : Callers σ ρ δ} {i : Nat} {t : Token}
    (hq : (b.calls i).options.required) (hs : (b.calls i).started = b.ledger.obtained.length)
    (hp : (b.calls i).phase = .returned t) : ¬b.ServesRenewed := by
  intro h
  have ha := h i t hq hp
  simp [Ledger.after, hs] at ha

namespace RenewableBearer

variable {b b' : RenewableBearer} {i n : Nat} {t : Token} {p : Phase} {c : Call}

-- The token that the loop has to hand over is one of those that the source gave out after the first `n`.
def DeliversAfter (b : RenewableBearer) (n : Nat) : Prop :=
  ∀ t, b.loop = .fetching (.done t) → b.ledger.after n t

def CallRenewed (b : RenewableBearer) (c : Call) : Prop :=
  c.started ≤ b.ledger.obtained.length ∧
  (c.options.required →
    match c.phase with
    | .proceeding w => c.options.synchronous ∧ (w → b.DeliversAfter c.started)
    | .sharing f =>
      b.DeliversAfter c.started ∧ ∀ t, b.renewal.futures[f]? = some (.token t) → b.ledger.after c.started t
    | .awaiting w =>
      b.DeliversAfter c.started ∧ (w ∨ b.renewal.isFresh → ∀ t, b.cache = some t → b.ledger.after c.started t)
    | .returned t => b.ledger.after c.started t
    | _ => True)

structure Delivery (b b' : RenewableBearer) : Prop where
  length : b.ledger.obtained.length ≤ b'.ledger.obtained.length
  after : ∀ n t, b.ledger.after n t → b'.ledger.after n t
  loop : ∀ t, b'.loop = .fetching (.done t) →
    b.loop = .fetching (.done t) ∨ ∀ n, n ≤ b.ledger.obtained.length → b'.ledger.after n t
  futures : ∀ (f : Nat) t, b'.renewal.futures[f]? = some (.token t) →
    b.renewal.futures[f]? = some (.token t) ∨ b.loop = .fetching (.done t)
  cache : ∀ t, b'.cache = some t → b.cache = some t ∧ (b'.renewal.isFresh → b.renewal.isFresh) ∨
    b.loop = .fetching (.done t)

theorem CallRenewed.mono (h : b.CallRenewed c) (d : Delivery b b') : b'.CallRenewed c := by
  obtain ⟨hs, hp⟩ := h
  refine ⟨Nat.le_trans hs d.length, fun hr => ?_⟩
  have hp := hp hr
  have hd (hd : b.DeliversAfter c.started) : b'.DeliversAfter c.started := by
    intro t ht
    rcases d.loop t ht with ht | hn
    · exact d.after _ t (hd t ht)
    · exact hn _ hs
  cases hc : c.phase <;> simp only [hc] at hp ⊢
  case proceeding => exact ⟨hp.left, fun hw => hd (hp.right hw)⟩
  case sharing =>
    refine ⟨hd hp.left, fun t ht => d.after _ t ?_⟩
    exact (d.futures _ t ht).elim (hp.right t) (hp.left t)
  case awaiting =>
    refine ⟨hd hp.left, fun hw t ht => d.after _ t ?_⟩
    rcases d.cache t ht with ⟨ht, hf⟩ | hl
    · exact hp.right (hw.imp id hf) t ht
    · exact hp.left t hl
  case returned => exact d.after _ _ hp

structure Renewing (b : RenewableBearer) : Prop where
  attempt : ∀ s, b.loop = .fetching s → b.renewal.canProceed = false
  calls : ∀ i, b.CallRenewed (b.calls i)

namespace Renewing

theorem initial : Renewing RenewableBearer.initial :=
  ⟨by simp [RenewableBearer.initial], fun _ => ⟨Nat.le_refl 0, by simp [RenewableBearer.initial]⟩⟩

variable (h : b.Renewing)
include h

theorem update (hc : b.CallRenewed c) : Renewing { b with calls := Function.update b.calls i c } := by
  refine ⟨h.attempt, fun j => ?_⟩
  dsimp only
  rw [Function.update_apply]
  split
  · exact hc
  · exact h.calls j

theorem goto (hp : b.CallRenewed { b.calls i with phase := p }) : Renewing (b.goto i p) :=
  h.update hp

theorem raised : Renewing (b.goto i (.raised ())) :=
  h.goto ⟨(h.calls i).left, fun _ => trivial⟩

end Renewing

theorem Delivery.renewal {r : Renewal} (hf : r.futures = b.renewal.futures)
    (hfresh : r.isFresh → b.renewal.isFresh) : Delivery b { b with renewal := r } where
  length := Nat.le_refl _
  after _ _ := id
  loop _ := .inl
  futures _ _ ht := .inl (hf ▸ ht)
  cache _ ht := .inl ⟨ht, hfresh⟩

theorem Delivery.atLoop {r : Renewal} {l : Loop} (d : Delivery b { b with renewal := r })
    (hl : ∀ t, l = .fetching (.done t) → b.loop = .fetching (.done t)) :
    Delivery b { b with renewal := r, loop := l } :=
  ⟨d.length, d.after, fun t ht => .inl (hl t ht), d.futures, d.cache⟩

namespace Renewing

variable (h : b.Renewing)
include h

theorem renewal {r : Renewal} (hc : r.canProceed = b.renewal.canProceed) (d : Delivery b { b with renewal := r }) :
    Renewing { b with renewal := r } :=
  ⟨fun s hs => hc.trans (h.attempt s hs), fun i => (h.calls i).mono d⟩

theorem wakeProceeding (hl : ∀ t, b.loop ≠ .fetching (.done t)) : Renewing (b.wakeAll .wakeProceeding) := by
  refine ⟨h.attempt, fun i => ⟨(h.calls i).left, fun hr => ?_⟩⟩
  have hi := (h.calls i).right hr
  simp only [wakeAll, Callers.wakeAll]
  cases hp : (b.calls i).phase <;> simp only [hp] at hi
  case proceeding => exact ⟨hi.left, fun _ t ht => absurd ht (hl t)⟩
  all_goals exact hi

theorem wakeAwaiting (hf : b.renewal.isFresh) : Renewing (b.wakeAll .wakeAwaiting) := by
  refine ⟨h.attempt, fun i => ⟨(h.calls i).left, fun hr => ?_⟩⟩
  have hi := (h.calls i).right hr
  simp only [wakeAll, Callers.wakeAll]
  cases hp : (b.calls i).phase <;> simp only [hp] at hi
  case awaiting => exact ⟨hi.left, fun _ => hi.right (.inr hf)⟩
  all_goals exact hi

theorem serve (hc : (b.calls i).options.required → ∀ t, b.cache = some t → b.ledger.after (b.calls i).started t) :
    Renewing (b.serve i) := by
  unfold RenewableBearer.serve
  split
  case h_1 t ht => exact h.goto ⟨(h.calls i).left, fun hr => hc hr t ht⟩
  case h_2 => exact h.raised

theorem request (hd : (b.calls i).options.required → b.DeliversAfter (b.calls i).started)
    (hc : (b.calls i).options.required → (b.calls i).options.shares = false → b.renewal.isFresh = false) :
    Renewing (b.request i) := by
  have hl := (h.calls i).left
  unfold RenewableBearer.request Callers.request
  split
  case isTrue =>
    have hr : Renewing { b with renewal := { b.renewal.share.1 with renewRequested := true } } := by
      refine h.renewal Renewal.share_canProceed
        ⟨Nat.le_refl _, fun _ _ => id, fun _ => .inl, fun f t ht => .inl ?_, fun t ht => .inl ⟨ht, fun hf => ?_⟩⟩
      · exact (Renewal.share_futures ht).resolve_right (by simp)
      · rwa [← Renewal.share_isFresh]
    refine hr.goto ⟨hl, fun hq => ⟨hd hq, fun t ht => ?_⟩⟩
    change b.renewal.share.1.futures[b.renewal.share.2]? = _ at ht
    simp [Renewal.share_pending] at ht
  case isFalse hs =>
    have hr : Renewing { b with renewal := { b.renewal with renewRequested := true } } :=
      h.renewal rfl (.renewal rfl id)
    refine hr.goto ⟨hl, fun hq => ⟨hd hq, fun hw => ?_⟩⟩
    have hf := hc hq (by simpa using hs)
    exact absurd (hw.elim id id) (by simp [hf])

theorem startLoop : Renewing b.startLoop := by
  unfold RenewableBearer.startLoop
  split
  · exact ⟨by simp, fun i => (h.calls i).mono (.atLoop (.renewal rfl id) (by simp))⟩
  · exact h

theorem fetch (hr : b.forces (.fetch i (b.calls i).options)) : Renewing (b.fetch i) := by
  have hs : b.startLoop.forces (.fetch i (b.startLoop.calls i).options) := by
    unfold RenewableBearer.startLoop
    split
    case h_1 hl => simpa [forces, hl] using hr
    case h_2 => exact hr
  have h' := h.startLoop
  unfold RenewableBearer.fetch
  generalize b.startLoop = b at hs h'
  dsimp only
  split
  case isTrue =>
    split
    case isTrue hj =>
      have hb : Renewing { b with renewal := { b.renewal with breakPrevious := true } } :=
        h'.renewal rfl (.renewal rfl id)
      refine hb.goto ⟨(h'.calls i).left, fun _ => ⟨by simp_all, fun hw t ht => ?_⟩⟩
      exact absurd hw (by simp [h'.attempt _ ht])
    case isFalse hj =>
      refine h'.request (fun hq t ht => ?_) fun hq hn => ?_
      · simp only [forces, hq, ht] at hs
        simp_all
      · simp only [forces, hq, hn] at hs
        simp_all
  case isFalse hn => exact h'.serve (by simp_all)

theorem attemptFailed : Renewing b.attemptFailed := by
  refine wakeProceeding ⟨by simp, fun i => (h.calls i).mono ?_⟩ (by simp)
  refine ⟨Nat.le_refl _, fun _ _ => id, by simp, fun f t ht => .inl ?_, fun t ht => .inl ⟨ht, fun hf => ?_⟩⟩
  · exact (Renewal.settle_futures ht).resolve_right (by simp)
  · simpa [Renewal.settle_isFresh, Renewal.endWait] using hf

theorem attemptSucceeded (hl : b.loop = .fetching (.done t)) : Renewing (b.attemptSucceeded t) := by
  refine wakeAwaiting (wakeProceeding ⟨by simp, fun i => (h.calls i).mono ?_⟩ (by simp)) rfl
  refine ⟨Nat.le_refl _, fun _ _ => id, by simp, fun f t' ht => ?_, fun t' ht => .inr ?_⟩
  · refine (Renewal.settle_futures ht).imp id fun he => ?_
    cases he
    exact hl
  · cases ht
    exact hl

theorem endAttempt (e : b.endAttempt = some b') : b'.Renewing := by
  rcases endAttempt_cases e with ⟨t, hl, rfl⟩ | ⟨-, rfl⟩
  · exact h.attemptSucceeded hl
  · exact h.attemptFailed

theorem sourceDone (hl : b.loop = .fetching .running) :
    Renewing { b with loop := .fetching (.done t), ledger := b.ledger.obtain t } where
  attempt _ _ := h.attempt _ hl
  calls i := by
    refine (h.calls i).mono ⟨?_, fun _ _ => Ledger.after_obtain, fun u hu => .inr fun n hn => ?_, fun _ _ => .inl,
      fun u hu => .inl ⟨hu, id⟩⟩
    · simp [Ledger.obtain]
    · cases hu
      exact Ledger.after_obtain_self hn

theorem resume (e : b.resume i = some b') : b'.Renewing := by
  have hi := (h.calls i).right
  unfold RenewableBearer.resume at e
  split at e
  case h_1 f hp =>
    simp only [hp] at hi
    split at e <;> cases e
    case h_1 t ht => exact h.goto ⟨(h.calls i).left, fun hr => (hi hr).right t ht⟩
    case h_2 => exact h.raised
  case h_2 hp =>
    simp only [hp] at hi
    cases e
    exact h.serve fun hr => (hi hr).right (.inl trivial)
  case h_3 => cases e

theorem step {a : Event} (hr : b.forces a) (e : b.step a = some b') : b'.Renewing := by
  cases a <;> simp only [RenewableBearer.step] at e
  case fetch i o =>
    split at e <;> cases e
    refine Renewing.fetch (h.update ⟨Nat.le_refl _, fun _ => trivial⟩) ?_
    simpa [forces] using hr
  case proceed i =>
    have hi := (h.calls i).right
    split at e <;> cases e
    case h_1 hp =>
      simp only [hp] at hi
      refine h.request (fun hq => (hi hq).right trivial) fun hq hn => ?_
      simp [FetchOptions.shares, (hi hq).left] at hn
  case poll i =>
    have hi := (h.calls i).right
    split at e
    case h_1 hp =>
      simp only [hp] at hi
      simp only [Machine.guard_iff] at e
      rw [← e.right]
      exact h.goto ⟨(h.calls i).left, fun hq => ⟨(hi hq).left, fun _ => (hi hq).right (.inr e.left)⟩⟩
    case h_2 => cases e
  case resume => exact h.resume e
  case timeout =>
    split at e <;> cases e <;> exact h.raised
  case beginAttempt =>
    split at e <;> cases e
    all_goals
      unfold RenewableBearer.beginAttempt
      split
      · exact ⟨by simp, fun i => (h.calls i).mono (.atLoop (.renewal rfl id) (by simp))⟩
      · exact ⟨fun _ _ => rfl, fun i => (h.calls i).mono (.atLoop (.renewal rfl id) (by simp))⟩
  case sourceDone =>
    split at e <;> cases e
    case h_1 hl => exact h.sourceDone hl
  case sourceFail =>
    split at e <;> cases e
    case h_1 hl => exact ⟨fun _ _ => h.attempt _ hl, fun i => (h.calls i).mono (.atLoop (.renewal rfl id) (by simp))⟩
  case endAttempt => exact h.endAttempt e
  case discard =>
    obtain ⟨r, hd, rfl⟩ := Option.map_eq_some_iff.mp e
    cases Renewal.eq_of_discard hd
    exact h.renewal rfl (.renewal rfl id)
  case retry =>
    cases e
    unfold RenewableBearer.retry Callers.retry Renewal.requestRenewal
    split
    case isFalse => exact h
    case isTrue hc =>
      rw [if_neg (by simp_all)]
      refine ⟨h.attempt, fun i => (h.calls i).mono ?_⟩
      exact ⟨Nat.le_refl _, fun _ _ => id, fun _ => .inl, fun _ _ => .inl, fun _ ht => .inl ⟨ht, by simp⟩⟩
  case stop =>
    cases e
    exact h.renewal rfl (.renewal rfl (by simp [Renewal.stop]))
  case cancelLoop =>
    split at e <;> cases e
    all_goals
      exact wakeProceeding ⟨by simp, fun i => (h.calls i).mono (.atLoop (.renewal rfl id) (by simp))⟩ (by simp)

end Renewing

open Machine (Reaches anyEvent)

theorem reaches_servesRenewed (h : Reaches step (fun b a => b.forces a = true) initial b) : b.ServesRenewed := by
  have hi : b.Renewing := h.invariant (I := Renewing) (fun hi hr e => hi.step hr e) .initial
  intro i t hq ht
  have hc := (hi.calls i).right hq
  rwa [ht] at hc

theorem serves_cached {o : FetchOptions} (hi : (b.calls i).phase = .fresh) (hq : o.required) (hs : o.shares = false)
    (hf : b.renewal.isFresh) (hc : b.cache = some t) :
    ∃ b', Machine.run step b [.fetch i o, .resume i] = some b' ∧ ¬b'.ServesRenewed := by
  have hn : o.synchronous = false := by simp_all [FetchOptions.shares]
  have h : ∃ b', Machine.run step b [.fetch i o, .resume i] = some b' ∧ (b'.calls i).options.required ∧
      (b'.calls i).started = b'.ledger.obtained.length ∧ (b'.calls i).phase = .returned t := by
    cases hl : b.loop
    all_goals
      simp [Machine.run, step, hi, fetch, startLoop, hl, hq, hn, hs, hf, hc, request, Callers.request, resume, serve,
        goto, Callers.goto]
  obtain ⟨b', hr, hq', hs', hp⟩ := h
  exact ⟨b', hr, Callers.not_servesRenewed hq' hs' hp⟩

theorem serves_delivered {o : FetchOptions} (hi : (b.calls i).phase = .fresh) (hq : o.required)
    (hl : b.loop = .fetching (.done t)) (hj : (o.synchronous && b.renewal.joinable.isNone) = false) :
    ∃ b', Machine.run step b [.fetch i o, .endAttempt, .resume i] = some b' ∧ ¬b'.ServesRenewed := by
  have h : ∃ b', Machine.run step b [.fetch i o, .endAttempt, .resume i] = some b' ∧
      (b'.calls i).options.required ∧ (b'.calls i).started = b'.ledger.obtained.length ∧
      (b'.calls i).phase = .returned t := by
    cases hs : o.shares
    case false =>
      simp [Machine.run, step, hi, fetch, startLoop, hl, hq, hj, hs, request, Callers.request, endAttempt,
        attemptSucceeded, wakeAll, Callers.wakeAll, Callers.Phase.wakeProceeding,
        Callers.Phase.wakeAwaiting, resume, serve, goto, Callers.goto]
    have hf : ({ b.renewal.share.1 with renewRequested := true }.endWait.settle (.token t)).futures[
        b.renewal.share.2]? = some (.token t) := Renewal.settle_joinable Renewal.share_joinable
    simp [Machine.run, step, hi, fetch, startLoop, hl, hq, hj, hs, request, Callers.request, endAttempt,
      attemptSucceeded, wakeAll, Callers.wakeAll, Callers.Phase.wakeProceeding,
      Callers.Phase.wakeAwaiting, resume, goto, Callers.goto, hf]
  obtain ⟨b', hr, hq', hs', hp⟩ := h
  exact ⟨b', hr, Callers.not_servesRenewed hq' hs' hp⟩

theorem reaches_old {o : FetchOptions} (hi : (b.calls i).phase = .fresh) (hc : b.renewal.isFresh → b.cache.isSome)
    (hn : b.forces (.fetch i o) = false) : ∃ b', Reaches step anyEvent b b' ∧ ¬b'.ServesRenewed := by
  simp only [forces, Bool.or_eq_false_iff, Bool.not_eq_false', Bool.and_eq_false_iff] at hn
  obtain ⟨hq, hn | hn⟩ := hn
  · obtain ⟨t, ht⟩ := Option.isSome_iff_exists.mp (hc hn.right)
    obtain ⟨b', hr, hb⟩ := serves_cached hi hq hn.left hn.right ht
    exact ⟨b', .of_run hr, hb⟩
  · split at hn
    case h_1 hl =>
      obtain ⟨b', hr, hb⟩ := serves_delivered hi hq hl hn
      exact ⟨b', .of_run hr, hb⟩
    case h_2 => simp at hn

end RenewableBearer

end Aio
