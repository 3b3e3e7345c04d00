import PysdkModel.Aio.Theorems.Leases

-- When a request is reported done. The flags of a failed attempt are followed to the next loop head or to the
-- end of the coroutine.

namespace Aio

namespace Request

variable {cfg : Config} {s t : Request} {source : Source} {r : Raised} {f : Failure} {ts : Times}
  {canRetry : Option Bool}

@[simp]
def Phase.isOpen : Phase → Bool
  | .completing | .recompleting | .ended _ => false
  | _ => true

def terminalAttempt (s : Request) : Bool := s.nativeTerminal || s.nativeAttemptTerminal

def defers (cfg : Config) (f : Failure) : Bool := cfg.provider && f.isUnauthenticated

def EndsWith (s t : Request) : Prop := (∃ o, t.phase = .ended o) ∧ t.future = s.future

theorem endsWith_raiseOut (s : Request) (o : Outcome) : EndsWith s (s.raiseOut o) := ⟨⟨_, rfl⟩, rfl⟩

structure Reauthorizes (s t : Request) : Prop where
  phase : t.phase = .authorizing
  future : t.future = s.future
  kept : t.cancelled = s.cancelled
  rejected : (s.retryDecisionPending && s.cancelled) = false
  terminal : t.nativeTerminal = false
  attempt : t.nativeAttemptTerminal = false
  pending : t.retryDecisionPending = false
  after : t.cancelAfterTerminalAttempt = false

attribute [local simp] resolveAuthorizationRetry requestTaskCancel decide release

theorem authorizationRetry_cases {now : Nat} :
    EndsWith s (authorizationRetry cfg s source f now canRetry) ∨
      (f.isUnauthenticated = true ∧ Reauthorizes s (authorizationRetry cfg s source f now canRetry)) := by
  unfold authorizationRetry
  cases f with
  | other _ => exact .inl (endsWith_raiseOut ..)
  | request status =>
    dsimp only
    split
    case isTrue => exact .inl ⟨⟨_, rfl⟩, rfl⟩
    case isFalse hc =>
      split
      case isTrue => exact .inl ⟨⟨_, rfl⟩, rfl⟩
      split
      case h_1 => exact .inl ⟨⟨_, rfl⟩, rfl⟩
      case h_2 => exact .inl ⟨⟨_, rfl⟩, rfl⟩
      have hu : (Failure.request status).isUnauthenticated = true := by
        simpa [Failure.isUnauthenticated] using hc
      split
      case isTrue => exact .inl ⟨⟨_, rfl⟩, rfl⟩
      case isFalse hr =>
        have hr : (s.retryDecisionPending && s.cancelled) = false := by
          simpa using hr
        right
        refine ⟨hu, ?_⟩
        split <;> exact {
          phase := rfl
          future := rfl
          kept := by simp
          rejected := hr
          terminal := by simp [hr]
          attempt := rfl
          pending := rfl
          after := rfl }

theorem raise_cases : EndsWith s (raise cfg s source f ts canRetry) ∨
    (defers cfg f = true ∧ Reauthorizes s (raise cfg s source f ts canRetry)) := by
  -- a release before that does not touch the flags
  have next {u : Request} (hf : u.future = s.future)
      (hr : ∀ {t}, Reauthorizes u t → Reauthorizes s t) :
      EndsWith s (if cfg.provider then authorizationRetry cfg u source f ts.authorize canRetry
        else u.raiseOut (.failed source f)) ∨
      (defers cfg f = true ∧ Reauthorizes s (if cfg.provider then
        authorizationRetry cfg u source f ts.authorize canRetry else u.raiseOut (.failed source f))) := by
    cases hp : cfg.provider with
    | false => exact .inl ⟨⟨_, rfl⟩, hf⟩
    | true =>
      rcases authorizationRetry_cases with ⟨he, hf'⟩ | ⟨hu, ha⟩
      · exact .inl ⟨he, hf'.trans hf⟩
      · exact .inr ⟨by simp [defers, hp, hu], hr ha⟩
  unfold raise
  rcases leaveRetryLoop_cases cfg s f ts.expire with h | ⟨discard, h⟩ <;> dsimp only <;> rw [h] <;>
    exact next rfl fun h => { h with }

structure Fails (s t : Request) (o : Outcome) : Prop where
  phase : t.phase = .ended o
  future : t.future = s.future
  terminal : t.nativeTerminal = s.nativeTerminal
  code : t.nativeCode = s.nativeCode
  status : t.status = s.status
  pending : s.retryDecisionPending = false → t.retryDecisionPending = false
  kept : s.cancelled = false → t.cancelled = false

theorem raise_fails (hd : defers cfg f = false) : Fails s (raise cfg s source f ts canRetry) (.failed source f) := by
  have next {u : Request} (hu : ∀ {t}, Fails u t (.failed source f) → Fails s t (.failed source f)) : Fails s
      (if cfg.provider then authorizationRetry cfg u source f ts.authorize canRetry
        else u.raiseOut (.failed source f)) (.failed source f) := by
    apply hu
    cases hp : cfg.provider with
    | false => constructor <;> simp [raiseOut]
    | true =>
      unfold authorizationRetry
      cases f with
      | other _ => constructor <;> simp [raiseOut]
      | request status =>
        have hc : status.code ≠ .unauthenticated := by simpa [defers, hp, Failure.isUnauthenticated] using hd
        constructor <;> simp [hc, raiseOut]
  unfold raise
  rcases leaveRetryLoop_cases cfg s f ts.expire with h | ⟨discard, h⟩ <;> dsimp only <;> rw [h] <;>
    exact next fun h => { h with }

-- The authorization loop does not authenticate again: its deadline has passed, or the authenticator refuses or
-- raises.
def GivesUp (s : Request) (now : Nat) (canRetry : Option Bool) : Prop :=
  timeLeft s.authDeadline now = false ∨ canRetry ≠ some true

instance (s : Request) (now : Nat) (canRetry : Option Bool) : Decidable (GivesUp s now canRetry) :=
  inferInstanceAs (Decidable (_ ∨ _))

-- What a final error is reported as. Only an authenticator that is asked and raises puts its own exception in the
-- place of the error.
def reported (cfg : Config) (s : Request) (source : Source) (f : Failure) (now : Nat) (canRetry : Option Bool) :
    Outcome :=
  if defers cfg f && timeLeft s.authDeadline now && canRetry.isNone then .unauthorized else .failed source f

theorem authorizationRetry_fails {status : RequestStatus} {now : Nat} (hc : status.code = .unauthenticated)
    (hp : cfg.provider = true) (hg : GivesUp s now canRetry) :
    Fails { s with retryDecisionPending := false, cancelled := false }
      (authorizationRetry cfg s source (.request status) now canRetry)
      (reported cfg s source (.request status) now canRetry) := by
  cases ht : timeLeft s.authDeadline now
  case false =>
    constructor <;> simp [authorizationRetry, hc, ht, reported, raiseOut]
  rcases canRetry with _ | _ | _
  · constructor <;> simp [authorizationRetry, hc, ht, reported, defers, hp, Failure.isUnauthenticated, raiseOut]
  · constructor <;> simp [authorizationRetry, hc, ht, reported, raiseOut]
  · simp [GivesUp, ht] at hg

theorem raise_givesUp (hd : defers cfg f = true) (hg : GivesUp s ts.authorize canRetry) :
    Fails { s with retryDecisionPending := false, cancelled := false } (raise cfg s source f ts canRetry)
      (reported cfg s source f ts.authorize canRetry) := by
  simp only [defers, Bool.and_eq_true] at hd
  cases f with
  | other _ => simp [Failure.isUnauthenticated] at hd
  | request status =>
    have hc : status.code = .unauthenticated := by simpa [Failure.isUnauthenticated] using hd.2
    simp only [raise, hd.1, if_true]
    rcases leaveRetryLoop_cases cfg s (.request status) ts.expire with h | ⟨discard, h⟩ <;> rw [h]
    · exact authorizationRetry_fails hc hd.1 hg
    · exact { authorizationRetry_fails (s := s.release discard) hc hd.1 hg with }

theorem fail_cases (cfg : Config) (s : Request) (source : Source) (r : Raised) (ts : Times)
    (canRetry : Option Bool) :
    let s₁ := classifyRaised cfg s r ts.classify
    let t := fail cfg s source r ts canRetry
    (wantsRetry cfg s₁ r.failure ts.decide = true ∧
      (s₁.terminalAttempt && s₁.retryDecisionPending && s₁.cancelled) = false ∧
      t = { (decide cfg s₁ r.failure ts.decide).2 with phase := .attempting }) ∨
    EndsWith s t ∨
    (wantsRetry cfg s₁ r.failure ts.decide = false ∧ defers cfg r.failure = true ∧
      Reauthorizes (decide cfg s₁ r.failure ts.decide).2 t) := by
  intro s₁ t
  have hf : s₁.future = s.future := by cases r <;> rfl
  cases hr : wantsRetry cfg s₁ r.failure ts.decide with
  | false =>
    have ht : t = raise cfg (decide cfg s₁ r.failure ts.decide).2 source r.failure ts canRetry := by
      simp [t, s₁, fail, hr, act]
    rw [ht]
    rcases raise_cases with ⟨he, hf'⟩ | ⟨hd, ha⟩
    · exact .inr <| .inl ⟨he, hf'.trans hf⟩
    · exact .inr <| .inr ⟨rfl, hd, ha⟩
  | true =>
    cases hc : (s₁.terminalAttempt && s₁.retryDecisionPending && s₁.cancelled) with
    | true =>
      refine .inr <| .inl ?_
      simp only [terminalAttempt] at hc
      simp [t, s₁, fail, hr, hc, act, EndsWith, raiseOut, ← hf]
    | false =>
      refine .inl ⟨rfl, rfl, ?_⟩
      simp only [terminalAttempt] at hc
      simp [t, s₁, fail, hr, hc, act]

theorem pending_of_wantsRetry {e : RpcError} (ht : ts.classify ≤ ts.decide)
    (h : wantsRetry cfg (classify cfg s e ts.classify) e.convert ts.decide = true) :
    (classify cfg s e ts.classify).retryDecisionPending = true := by
  simp only [wantsRetry, Bool.and_eq_true] at h
  obtain ⟨⟨⟨htime, hr⟩, hl⟩, -⟩ := h
  have htime : timeLeft s.deadline ts.classify = true := by
    have htime : timeLeft s.deadline ts.decide = true := htime
    cases hd : s.deadline with
    | none => rfl
    | some d =>
      simp only [hd, timeLeft, decide_eq_true_eq] at htime ⊢
      omega
  have hl : retriesLeft cfg s = true := hl
  simp [classify, htime, RpcError.couldRetry_of_convert hr, hl]

theorem uncancelled_of_retry (hk : s.cancelAfterTerminalAttempt = true → s.cancelled = true)
    (ht : ts.classify ≤ ts.decide) (hr : (∃ e, r = .rpc e) ∨ s.cancelled = false)
    (hw : wantsRetry cfg (classifyRaised cfg s r ts.classify) r.failure ts.decide = true)
    (hd : ((classifyRaised cfg s r ts.classify).terminalAttempt &&
      (classifyRaised cfg s r ts.classify).retryDecisionPending &&
      (classifyRaised cfg s r ts.classify).cancelled) = false) :
    (classifyRaised cfg s r ts.classify).cancelled = false ∧
      (classifyRaised cfg s r ts.classify).cancelAfterTerminalAttempt = false := by
  cases r with
  | rpc e =>
    have hp := pending_of_wantsRetry ht hw
    have hx : (classify cfg s e ts.classify).cancelled = false := by
      have ht : (classify cfg s e ts.classify).terminalAttempt = true := rfl
      simpa [classifyRaised, hp, ht] using hd
    refine ⟨hx, ?_⟩
    cases hk' : s.cancelAfterTerminalAttempt with
    | false => simp [classifyRaised, classify, hk']
    | true =>
      have hp' : (classify cfg s e ts.classify).cancelled =
          (s.cancelled && !(s.cancelAfterTerminalAttempt &&
            !(classify cfg s e ts.classify).retryDecisionPending)) := rfl
      simp [hp', hk hk', hp] at hx
  | exception f =>
    have hx := hr.resolve_left (by simp)
    refine ⟨hx, ?_⟩
    cases hk' : s.cancelAfterTerminalAttempt with
    | false => exact hk'
    | true => simp [hk hk'] at hx

structure Coherent (s : Request) : Prop where
  terminal : s.phase.isOpen = true → s.nativeTerminal = false
  submitted : s.future = none ↔ s.phase = .unsubmitted
  finished : s.future = some .finished → ∃ o, s.phase = .ended o
  early : s.phase = .unsubmitted ∨ s.phase = .queued ∨ s.phase = .created → s.nativeAttemptTerminal = false
  -- a cancellation that was recorded for a native call that has ended is not accepted through the future
  after : s.phase.isOpen = true → s.cancelAfterTerminalAttempt = true →
    s.cancelled = true ∧ s.nativeAttemptTerminal = true ∧ s.future ≠ some .cancelled
  accepted : s.phase.isOpen = true → s.future = some .cancelled →
    s.phase = .queued ∨ s.phase = .created ∨ s.cancelled = true

theorem initial_coherent : Coherent (initial cfg) := by
  constructor <;> simp [initial]

namespace Coherent

theorem of_endsWith (h : s.future ≠ none) (e : EndsWith s t) : Coherent t := by
  obtain ⟨⟨o, ho⟩, hf⟩ := e
  constructor <;> simp [ho, hf, h]

def Active (s : Request) : Prop :=
  s.phase ≠ .unsubmitted ∧ s.phase ≠ .queued ∧ s.phase ≠ .created ∧ s.phase.isOpen = true

section

variable (h : Coherent s)
include h

theorem future_pending_or_cancelled (ha : Active s) :
    s.future = some .pending ∨ (s.future = some .cancelled ∧ s.cancelled = true) := by
  obtain ⟨h₁, h₂, h₃, h₄⟩ := ha
  cases hf : s.future with
  | none => exact absurd (h.submitted.mp hf) h₁
  | some x =>
    cases x with
    | pending => exact .inl rfl
    | cancelled => exact .inr ⟨rfl, (h.accepted h₄ hf).resolve_left h₂ |>.resolve_left h₃⟩
    | finished =>
      obtain ⟨o, ho⟩ := h.finished hf
      simp [ho] at h₄

theorem fail (ha : Active s) (ht : ts.classify ≤ ts.decide)
    (hr : (∃ e, r = .rpc e) ∨ s.cancelled = false) : Coherent (fail cfg s source r ts canRetry) := by
  have hf := h.future_pending_or_cancelled ha
  have hn : s.future ≠ none := by rcases hf with hf | hf <;> simp [hf]
  have hc := h.terminal ha.2.2.2
  have hk := h.after ha.2.2.2
  have hf₁ : (classifyRaised cfg s r ts.classify).future = s.future := by cases r <;> rfl
  -- a cancellation that was accepted through the future survives the classification
  have hc₁ : s.future = some .cancelled → (classifyRaised cfg s r ts.classify).cancelled = true := by
    intro hf'
    have hx := hf.resolve_left (by simp [hf'])
    have hk' : s.cancelAfterTerminalAttempt = false := by
      by_contra hk'
      exact (hk (by simpa using hk')).2.2 hf'
    cases r <;> simp [classifyRaised, classify, hx.2, hk']
  rcases fail_cases cfg s source r ts canRetry with ⟨hw, hd, e⟩ | e | ⟨hw, hd, e⟩
  case inr.inl => exact of_endsWith hn e
  case inl =>
    have hx := uncancelled_of_retry (fun h => (hk h).1) ht hr hw hd
    have hf' : s.future ≠ some .cancelled := fun hf' => by simp [hc₁ hf'] at hx
    have hterm : ((decide cfg (classifyRaised cfg s r ts.classify) r.failure ts.decide).2).nativeTerminal = false := by
      simp only [terminalAttempt] at hd
      simp only [decide, hw, hd, Bool.true_and, Bool.not_false, Bool.and_true, Bool.and_not_self]
    rw [e]
    exact {
      terminal := fun _ => hterm
      submitted := by simpa [hf₁] using hn
      finished := by
        intro hf''
        simp only [decide, hf₁] at hf''
        rcases hf with hf | hf <;> simp [hf] at hf''
      early := by simp
      after := by simp [hx]
      accepted := fun _ hf'' => absurd (hf₁ ▸ hf'') hf' }
  case inr.inr =>
    exact {
      terminal := fun _ => e.terminal
      submitted := by simpa [e.phase, e.future, hf₁] using hn
      finished := by
        intro hf''
        simp only [e.future, decide, hf₁] at hf''
        rcases hf with hf | hf <;> simp [hf] at hf''
      early := by simp [e.phase]
      after := by simp [e.after]
      accepted := by
        intro _ hf''
        simp only [e.future, decide, hf₁] at hf''
        have hd' : (cfg.provider && r.failure.isUnauthenticated) = true := hd
        simp [e.kept, hc₁ hf'', hd'] }

theorem ne_none (hp : s.phase ≠ .unsubmitted) : s.future ≠ none := fun hf =>
  hp (h.submitted.mp hf)

theorem ended (hp : s.phase ≠ .unsubmitted) {o : Outcome} (ht : t.phase = .ended o)
    (hf : t.future = s.future) : Coherent t :=
  of_endsWith (h.ne_none hp) ⟨⟨o, ht⟩, hf⟩

theorem of_phase (ha : Active s) {p : Phase} (hp : Active { s with phase := p }) : Coherent { s with phase := p } where
  terminal := fun _ => h.terminal ha.2.2.2
  submitted := by simpa [hp.1] using h.ne_none ha.1
  finished := by
    intro hf
    rcases h.future_pending_or_cancelled ha with hf' | hf' <;> simp [hf'] at hf
  early := by
    rintro (hp' | hp' | hp')
    · exact absurd hp' hp.1
    · exact absurd hp' hp.2.1
    · exact absurd hp' hp.2.2.1
  after := fun _ => h.after ha.2.2.2
  accepted := fun _ hf => .inr <| .inr <| by
    rcases h.future_pending_or_cancelled ha with hf' | hf'
    · simp [hf'] at hf
    · exact hf'.2

theorem submit (hp : s.phase = .unsubmitted) (now : Nat) (accepted : Bool) : Coherent (submit cfg s now accepted) := by
  unfold Request.submit
  split
  · have ho : s.phase.isOpen = true := by simp [hp]
    exact {
      terminal := fun _ => h.terminal ho
      submitted := by simp
      finished := by simp
      early := fun _ => h.early (.inl hp)
      after := fun _ hk => ⟨(h.after ho hk).1, (h.after ho hk).2.1, by simp⟩
      accepted := by simp }
  · exact { h with }

theorem dispatch (hp : s.phase = .queued) (created : Bool) : Coherent (s.dispatch created) := by
  have ho : s.phase.isOpen = true := by simp [hp]
  have hn := h.ne_none (by simp [hp])
  unfold Request.dispatch
  split
  case isTrue => exact h.ended (by simp [hp]) rfl rfl
  case isFalse hc =>
    split
    · exact {
        terminal := fun _ => h.terminal ho
        submitted := by simpa using hn
        finished := by
          intro hf
          obtain ⟨o, ho'⟩ := h.finished hf
          simp [hp] at ho'
        early := fun _ => h.early (.inr <| .inl hp)
        after := fun _ => h.after ho
        accepted := fun _ hf => absurd hf hc }
    · constructor <;> simp

theorem abandon (hp : s.phase = .queued ∨ s.phase = .created) : Coherent s.cancelFuture := by
  have ho : s.phase.isOpen = true := by rcases hp with hp | hp <;> simp [hp]
  exact {
    terminal := fun _ => h.terminal ho
    submitted := by rcases hp with hp | hp <;> simp [cancelFuture, hp]
    finished := by simp [cancelFuture]
    early := fun _ => h.early (.inr hp)
    after := by
      intro _ hk
      have := (h.after ho hk).2.1
      simp [h.early (.inr hp)] at this
    accepted := fun _ _ => hp.elim .inl (.inr ∘ .inl) }

theorem start (hp : s.phase = .created) (now : Nat) (providerRaises : Bool)
    (hc : s.future = some .cancelled → s.cancelled = true ∨ s.cleanedUp = true) :
    Coherent (start cfg s now providerRaises) := by
  have ho : s.phase.isOpen = true := by simp [hp]
  have hu : s.phase ≠ .unsubmitted := by simp [hp]
  have hf : s.future ≠ some .finished := fun hf => by
    obtain ⟨o, ho'⟩ := h.finished hf
    simp [hp] at ho'
  unfold Request.start
  dsimp only
  split
  case isTrue => exact h.ended hu rfl rfl
  split
  case isTrue => exact h.ended hu rfl rfl
  case isFalse hu' =>
    have hc' : s.future = some .cancelled → s.cancelled = true := fun hf' => (hc hf').resolve_right hu'
    split
    case isTrue =>
      exact {
        terminal := fun _ => h.terminal ho
        submitted := by simpa using h.ne_none hu
        finished := fun hf' => absurd hf' hf
        early := by simp
        after := fun _ => h.after ho
        accepted := fun _ hf' => .inr <| .inr <| hc' hf' }
    split
    case isTrue => exact h.ended hu rfl rfl
    exact {
      terminal := fun _ => h.terminal ho
      submitted := by simpa using h.ne_none hu
      finished := fun hf' => absurd hf' hf
      early := by simp
      after := fun _ => h.after ho
      accepted := fun _ hf' => .inr <| .inr <| hc' hf' }

attribute [local simp] Active

theorem authorize (hp : s.phase = .authorizing) (now : Nat) : Coherent (s.authorize now) := by
  unfold Request.authorize
  dsimp only
  split
  case isTrue => exact h.ended (by simp [hp]) rfl rfl
  have h' : Coherent { s with clock := now } := { h with }
  exact h'.of_phase (by simp [hp]) (by simp)

theorem authenticated (hp : s.phase = .authenticating) (a : Authenticated) (now : Nat) :
    Coherent (authenticated cfg s a now) := by
  have h' : Coherent { s with clock := now } := { h with }
  have ha : Active { s with clock := now } := by simp [hp]
  unfold Request.authenticated
  cases a with
  | ok =>
    exact { h'.of_phase ha (p := .attempting) (by simp) with }
  | raises canRetry =>
    dsimp only
    split
    case isTrue => exact h.ended (by simp [hp]) rfl rfl
    split
    · exact h'.of_phase ha (by simp)
    · exact h.ended (by simp [hp]) rfl rfl

theorem attemptCall (hp : s.phase = .attempting) (how : Send)
    (ht : ts.classify ≤ ts.decide) : Coherent (attemptCall cfg s how ts canRetry) := by
  unfold Request.attemptCall
  split
  case isTrue => exact h.ended (by simp [hp]) rfl rfl
  case isFalse hc =>
    simp only [Bool.not_eq_true] at hc
    split
    case isTrue => exact h.ended (by simp [hp]) rfl rfl
    have h' : Coherent { s with attempt := s.attempt + 1, status := none, nativeCode := none } := { h with }
    have ha : Active { s with attempt := s.attempt + 1, status := none, nativeCode := none } := by
      simp [hp]
    cases how with
    | opens => exact { h'.of_phase ha (p := .calling) (by simp) with }
    | raises r leased =>
      cases leased with
      | false => exact h'.fail ha ht (.inr hc)
      | true => exact fail (s := Request.acquire _) { h' with } ha ht (.inr hc)
    | foreignLoop => exact fail (s := Request.release (Request.acquire _) true) { h' with } ha ht (.inr hc)

theorem nativeDone (hb : Balanced cfg s) (hc : s.call.isSome = true) (o : Native) :
    Coherent (s.markNativeAttemptTerminal o) :=
  { h with
    early := by
      intro hp
      have := hb.started (hb.unstarted hp)
      simp [this.1] at hc
    after := fun ho hk => ⟨(h.after ho hk).1, by simp [markNativeAttemptTerminal, (h.after ho hk).2.1],
      (h.after ho hk).2.2⟩ }

theorem resume {o : Native} (hp : s.phase = .calling ∨ s.phase = .shielded)
    (ht : ts.classify ≤ ts.decide) : Coherent (resume cfg s o ts canRetry) := by
  have ha : Active s := by rcases hp with hp | hp <;> simp [hp]
  unfold Request.resume
  cases o with
  | success =>
    rcases h.future_pending_or_cancelled ha with hf | hf <;>
      constructor <;> simp [publishSuccess, hf]
  | error e => exact h.fail ha ht (.inl ⟨e, rfl⟩)
  | cancelled =>
    dsimp only
    split
    · exact h.of_phase ha (by simp)
    · exact h.ended ha.1 rfl rfl

theorem deliver (e : s.deliver = some t) : Coherent t := by
  have h' : Coherent { s with taskCancel := .delivered } := { h with }
  unfold Request.deliver at e
  dsimp only at e
  split at e <;> cases e
  case h_1 hp => exact h.ended (by simp [hp]) rfl rfl
  case h_2 hp => exact h.ended (by simp [hp]) rfl rfl
  case h_3 hp =>
    split
    · exact h'.of_phase (by simp [hp]) (by simp)
    · exact h.ended (by simp [hp]) rfl rfl
  case h_4 hp =>
    have hn := h.ne_none (by simp [hp])
    have hf := h.finished
    simp only [hp, reduceCtorEq, exists_false, imp_false] at hf
    constructor <;> simp [hn, hf]

theorem cancelFuture (hf : s.future = some .pending)
    (hk : s.nativeAttemptTerminal = false) (hc : s.cancelled = true) : Coherent s.cancelFuture where
  __ := h
  submitted := by simpa [Request.cancelFuture, hf] using h.submitted
  finished := by simp [Request.cancelFuture]
  after := by
    intro ho hk'
    have := (h.after ho hk').2.1
    simp [hk] at this
  accepted := fun _ _ => .inr <| .inr hc

theorem cancel : Coherent s.cancel.2 := by
  unfold Request.cancel
  split
  case isTrue => exact h
  case isFalse hc =>
    simp only [Bool.or_eq_true, not_or, Bool.not_eq_true] at hc
    split
    case isTrue hk =>
      exact { h with
        after := fun ho _ => ⟨rfl, hk, fun hf => by
          -- only the owner of an open request marks a call as ended, and then the future is not cancelled
          rcases h.accepted ho hf with hp | hp | hp
          · simp [h.early (.inr <| .inl hp)] at hk
          · simp [h.early (.inr <| .inr hp)] at hk
          · simp [hc.1] at hp⟩
        accepted := fun _ _ => .inr <| .inr rfl }
    case isFalse hk =>
      simp only [Bool.not_eq_true] at hk
      have setCancelled : Coherent { s with cancelled := true } :=
        { h with
          after := fun ho hk' => ⟨rfl, (h.after ho hk').2⟩
          accepted := fun _ _ => .inr <| .inr rfl }
      split
      case h_1 => exact setCancelled
      case h_2 hf => exact setCancelled.cancelFuture hf hk rfl
      case h_3 => exact setCancelled
      case h_4 => exact h

theorem expireWait : Coherent s.expireWait.2 := by
  unfold Request.expireWait
  split
  case isTrue => exact h
  case isFalse hf =>
    split
    case isTrue => exact { h with }
    split
    case isTrue hk =>
      split
      case isTrue => exact h
      exact { h with
        after := by
          intro ho _
          have ht := h.terminal ho
          simp only [Bool.or_eq_true, Bool.and_eq_true, ht, Bool.false_eq_true, false_and, or_false] at hk
          refine ⟨rfl, hk, fun hf' => hf ?_⟩
          simp only [futureDone, Bool.or_eq_true, decide_eq_true_eq]
          exact .inl hf'
        accepted := fun _ _ => .inr <| .inr rfl }
    case isFalse => exact h.cancel

end

theorem cancelled_of_expireWait (he : s.expireWait.1 = false) (hf : s.expireWait.2.future = some .pending) :
    s.expireWait.2.cancelled = true ∧ s.expireWait.2.nativeAttemptTerminal = false := by
  unfold Request.expireWait at he hf ⊢
  split at he
  case isTrue hd =>
    simp only [if_pos hd] at hf
    simp [futureDone, hf] at hd
  case isFalse hd =>
    simp only [if_neg hd] at hf ⊢
    split at he
    case isTrue => simp at he
    case isFalse ht =>
      simp only [if_neg ht] at hf ⊢
      split at he
      case isTrue => split at he <;> simp at he
      case isFalse hk =>
        simp only [if_neg hk] at hf ⊢
        simp only [Bool.or_eq_true, not_or, Bool.not_eq_true] at hk
        unfold Request.cancel at hf ⊢
        cases hc : s.cancelled with
        | true => simp [hc, hk.1]
        | false =>
          cases hf' : s.future with
          | none => simp [hc, hk.1, hf', ht] at hf
          | some x => cases x <;> simp [hc, hk.1, hf', ht, Request.cancelFuture] at hf

theorem expire (h : Coherent s) (synchronous : Bool) : Coherent (s.expire synchronous) := by
  unfold Request.expire
  split
  case isTrue hs =>
    simp only [Bool.and_eq_true, Bool.not_eq_true', decide_eq_true_eq] at hs
    obtain ⟨⟨-, he⟩, hf⟩ := hs
    obtain ⟨hc, hk⟩ := cancelled_of_expireWait he hf
    exact h.expireWait.cancelFuture hf hk hc
  case isFalse => exact h.expireWait

end Coherent

def Raised.IsFinal (cfg : Config) (r : Raised) : Prop :=
  r.failure.isRetriable = false ∧ defers cfg r.failure = false

theorem endsWith_fail (h : r.IsFinal cfg) (s : Request) (source : Source) (ts : Times)
    (canRetry : Option Bool) : EndsWith s (fail cfg s source r ts canRetry) := by
  rcases fail_cases cfg s source r ts canRetry with ⟨hw, -⟩ | e | ⟨-, hd, -⟩
  · simp [wantsRetry, h.1] at hw
  · exact e
  · simp [h.2] at hd

-- The processing of a successful response does not fail with an exception that looks retriable, and the runtime
-- cleans up after a future that it cancels before the first step of the task.
def Settles (cfg : Config) (s : Request) : Event → Prop
  | .processed (.raises _ r) _ _ => r.IsFinal cfg
  | .start _ _ => s.future = some .cancelled → s.cancelled = true ∨ s.cleanedUp = true
  | _ => True

instance (cfg : Config) (r : Raised) : Decidable (r.IsFinal cfg) :=
  inferInstanceAs (Decidable (_ ∧ _))

instance (cfg : Config) (s : Request) (a : Event) : Decidable (Settles cfg s a) :=
  match a with
  | .processed (.raises _ r) _ _ => inferInstanceAs (Decidable (r.IsFinal cfg))
  | .start _ _ =>
    inferInstanceAs (Decidable (s.future = some .cancelled → s.cancelled = true ∨ s.cleanedUp = true))
  | .processed .response _ _ | .submit .. | .dispatch _ | .abandon | .releaseIfUnstarted | .authorize _
  | .authenticated .. | .attempt .. | .nativeDone _ | .resume .. | .cancelTask | .deliver | .publish | .cancel
  | .expire _ => .isTrue trivial

theorem Coherent.complete (h : Coherent s) (hp : s.phase = .completing ∨ s.phase = .recompleting) (p : Processed)
    (hf : ∀ converted r, p = .raises converted r → r.IsFinal cfg) : Coherent (complete cfg s p ts canRetry) := by
  have hn := h.ne_none (by rcases hp with hp | hp <;> simp [hp])
  cases p with
  | response => exact of_endsWith hn ⟨⟨_, rfl⟩, rfl⟩
  | raises converted r =>
    have e := endsWith_fail (hf converted r rfl) { s with status := if converted then some .ok else s.status }
      .processing ts canRetry
    exact of_endsWith hn ⟨e.1, e.2⟩

theorem Coherent.step {a : Event} (h : Coherent s) (hb : Balanced cfg s) (ha : Settles cfg s a)
    (e : step cfg s a = some t) : Coherent t := by
  cases a <;> simp only [Request.step, Option.ite_none_right_eq_some, Option.some.injEq] at e
  case submit now accepted => exact e.2 ▸ h.submit e.1.1 now accepted
  case dispatch created => exact e.2 ▸ h.dispatch e.1 created
  case abandon => exact e.2 ▸ h.abandon e.1.1
  case releaseIfUnstarted =>
    rw [← e.2]
    unfold releaseIfUnstarted
    split
    · exact h
    · exact { h with }
  case start now providerRaises => exact e.2 ▸ h.start e.1.1 now providerRaises ha
  case authorize now => exact e.2 ▸ h.authorize e.1.1 now
  case authenticated a now => exact e.2 ▸ h.authenticated e.1.1 a now
  case attempt how ts canRetry =>
    obtain ⟨⟨hp, ht⟩, rfl⟩ := e
    have h' : Coherent { s with clock := ts.authorize } := { h with }
    exact h'.attemptCall hp how ht.2.2.1
  case nativeDone o => exact e.2 ▸ h.nativeDone hb e.1.1 o
  case resume ts canRetry =>
    obtain ⟨o, -, hp, ht, rfl⟩ := step_resume e
    have h' : Coherent { s with clock := ts.authorize } := { h with }
    exact h'.resume hp ht.2.2.1
  case processed p ts canRetry =>
    obtain ⟨⟨hp, -⟩, rfl⟩ := e
    have h' : Coherent { s with clock := ts.authorize } := { h with }
    refine h'.complete hp p ?_
    rintro converted r rfl
    exact ha
  case cancelTask => exact e ▸ { h with }
  case deliver => exact h.deliver e.2
  case publish =>
    split at e <;> cases e
    case h_1 o ho =>
      have hn := h.ne_none (by simp [ho])
      unfold copyOutcome
      split
      · constructor <;> simp [ho]
      · exact h
  case cancel => exact e ▸ h.cancel
  case expire synchronous => exact e.2 ▸ h.expire synchronous

theorem fail_of_not_wantsRetry
    (hw : wantsRetry cfg (classifyRaised cfg s r ts.classify) r.failure ts.decide = false) :
    fail cfg s source r ts canRetry =
      raise cfg (decide cfg (classifyRaised cfg s r ts.classify) r.failure ts.decide).2 source r.failure ts
        canRetry := by
  simp [fail, hw, act]

theorem fail_fails (s : Request) (source : Source) (ts : Times) (canRetry : Option Bool)
    (hw : wantsRetry cfg (classifyRaised cfg s r ts.classify) r.failure ts.decide = false)
    (hd : defers cfg r.failure = false) :
    Fails (decide cfg (classifyRaised cfg s r ts.classify) r.failure ts.decide).2
      (fail cfg s source r ts canRetry) (.failed source r.failure) :=
  fail_of_not_wantsRetry hw ▸ raise_fails hd

theorem fail_givesUp (s : Request) (source : Source) (ts : Times) (canRetry : Option Bool)
    (hw : wantsRetry cfg (classifyRaised cfg s r ts.classify) r.failure ts.decide = false)
    (hd : defers cfg r.failure = true) (hg : GivesUp s ts.authorize canRetry) :
    Fails { (decide cfg (classifyRaised cfg s r ts.classify) r.failure ts.decide).2 with
        retryDecisionPending := false, cancelled := false }
      (fail cfg s source r ts canRetry) (reported cfg s source r.failure ts.authorize canRetry) := by
  have ha : (classifyRaised cfg s r ts.classify).authDeadline = s.authDeadline := by cases r <;> rfl
  have h : Fails _ (raise cfg (decide cfg (classifyRaised cfg s r ts.classify) r.failure ts.decide).2 source
      r.failure ts canRetry) _ := raise_givesUp hd (by simpa [GivesUp, ha] using hg)
  simpa [fail_of_not_wantsRetry hw, reported, ha] using h

theorem done_fail (h : r.IsFinal cfg) (s : Request) (source : Source) (ts : Times) (canRetry : Option Bool)
    (hs : s.nativeTerminal = true) : (fail cfg s source r ts canRetry).done = true := by
  have hw : wantsRetry cfg (classifyRaised cfg s r ts.classify) r.failure ts.decide = false := by
    simp [wantsRetry, h.1]
  have hd : (cfg.provider && r.failure.isUnauthenticated) = false := h.2
  have e := fail_fails s source ts canRetry hw h.2
  have ht : (classifyRaised cfg s r ts.classify).nativeTerminal = true := by
    cases r with
    | rpc _ => rfl
    | exception _ => exact hs
  have hp := e.pending (by simp [hd])
  have hn := e.terminal
  simp only [decide, hw, ht, Bool.true_or, Bool.false_and, Bool.not_false, Bool.and_true] at hn
  simp [done, hn, hp]

theorem future_attemptCall (how : Send) : (attemptCall cfg s how ts canRetry).future = s.future := by
  unfold attemptCall
  split
  case isTrue => rfl
  split
  case isTrue => rfl
  cases how with
  | opens => rfl
  | raises r leased => cases leased <;> exact (Kept.fail ..).future
  | foreignLoop => exact (Kept.fail ..).future

theorem future_cancel (hf : s.futureDone = true) : s.cancel.2.future = s.future := by
  unfold cancel
  repeat' split
  case h_2 hf' => simp [futureDone, hf'] at hf
  all_goals rfl

theorem future_expire (hf : s.futureDone = true) (synchronous : Bool) : (s.expire synchronous).future = s.future := by
  have he : s.expireWait.2 = s := by simp [expireWait, hf]
  unfold expire
  split
  case isTrue hp =>
    simp only [he, Bool.and_eq_true, decide_eq_true_eq] at hp
    simp [futureDone, hp.2] at hf
  case isFalse => rw [he]

theorem future_step {a : Event} (h : Coherent s) (e : step cfg s a = some t) (hf : s.futureDone = true) :
    t.future = s.future := by
  cases a <;> simp only [step, Option.ite_none_right_eq_some, Option.some.injEq] at e
  case submit now accepted => simp [futureDone, h.submitted.mpr e.1.1] at hf
  case dispatch created =>
    have hc : s.future = some .cancelled := by
      simp only [futureDone, Bool.or_eq_true, decide_eq_true_eq] at hf
      refine hf.resolve_right fun hf' => ?_
      obtain ⟨o, ho⟩ := h.finished hf'
      simp [e.1] at ho
    rw [← e.2]
    simp [dispatch, hc]
  case abandon => simp [futureDone, e.1.2] at hf
  case releaseIfUnstarted =>
    rw [← e.2]
    unfold releaseIfUnstarted
    split <;> rfl
  case start now providerRaises => exact e.2 ▸ (Kept.start now providerRaises).future
  case authorize now => exact e.2 ▸ (Kept.authorize now).future
  case authenticated a now => exact e.2 ▸ (Kept.authenticated a now).future
  case attempt how ts canRetry => exact e.2 ▸ future_attemptCall how
  case nativeDone o => exact e.2 ▸ rfl
  case resume ts canRetry =>
    obtain ⟨o, -, -, -, rfl⟩ := step_resume e
    exact (Kept.resume o).future
  case processed p ts canRetry => exact e.2 ▸ (Kept.complete p).future
  case cancelTask => exact e ▸ rfl
  case deliver => exact (Kept.deliver e.2).future
  case publish =>
    split at e <;> cases e
    unfold copyOutcome
    split
    case isTrue hp => simp [futureDone, hp] at hf
    case isFalse => rfl
  case cancel => exact e ▸ future_cancel hf
  case expire synchronous => exact e.2 ▸ future_expire hf synchronous

theorem done_step {a : Event} (h : Coherent s) (ha : Settles cfg s a) (e : step cfg s a = some t)
    (hd : s.done = true) : t.done = true := by
  by_cases hf : s.futureDone = true
  case pos =>
    have hf' : t.futureDone = true := by simpa [futureDone, future_step h e hf] using hf
    simp [done, hf']
  -- the outcome of the native call was published, so that the coroutine is completing or has ended
  have hn : s.nativeTerminal = true ∧ s.retryDecisionPending = false := by simpa [done, hf] using hd
  have ho : s.phase.isOpen = false := by
    by_contra ho
    simp [h.terminal (by simpa using ho)] at hn
  have keep {u : Request} (h₁ : u.nativeTerminal = s.nativeTerminal)
      (h₂ : u.retryDecisionPending = s.retryDecisionPending) : u.done = true := by
    simp [done, h₁, h₂, hn]
  cases a <;> simp only [step, Option.ite_none_right_eq_some, Option.some.injEq] at e
  case submit now accepted => simp [e.1.1] at ho
  case dispatch created => simp [e.1] at ho
  case abandon => rcases e.1.1 with hp | hp <;> simp [hp] at ho
  case releaseIfUnstarted => exact absurd e.1 hf
  case start now providerRaises => simp [e.1.1] at ho
  case authorize now => simp [e.1.1] at ho
  case authenticated a now => simp [e.1.1] at ho
  case attempt how ts canRetry => simp [e.1.1] at ho
  case nativeDone o => exact e.2 ▸ keep rfl rfl
  case resume ts canRetry =>
    obtain ⟨-, -, hp | hp, -⟩ := step_resume e <;> simp [hp] at ho
  case processed p ts canRetry =>
    obtain ⟨-, rfl⟩ := e
    cases p with
    | response => exact keep rfl rfl
    | raises converted r => exact done_fail ha _ _ _ _ hn.1
  case cancelTask => exact e ▸ keep rfl rfl
  case deliver =>
    have e := e.2
    unfold deliver at e
    dsimp only at e
    split at e <;> cases e
    case h_4 => exact keep rfl rfl
    all_goals rename_i hp; simp [hp] at ho
  case publish =>
    split at e <;> cases e
    unfold copyOutcome
    split <;> exact keep rfl rfl
  case cancel => exact e ▸ by simpa [cancel, hn] using hd
  case expire synchronous =>
    obtain ⟨-, rfl⟩ := e
    have he : s.expireWait = (true, { s with deadlineExpired := true }) := by simp [expireWait, hf, hn]
    simp only [expire, he, Bool.not_true, Bool.and_false, Bool.false_and, Bool.false_eq_true, if_false]
    exact keep rfl rfl

theorem calls_step_of_done {a : Event} (h : Coherent s) (e : step cfg s a = some t)
    (hd : s.done = true) : t.calls.length = s.calls.length := by
  rcases step_calls e with hl | ⟨hp, hc, -⟩
  case inl => exact hl
  have ho : s.phase.isOpen = true := by simp [hp]
  have hf : s.future = some .cancelled ∨ s.future = some .finished := by
    simpa [done, futureDone, h.terminal ho] using hd
  rcases hf with hf | hf
  · simpa [hp, hc] using h.accepted ho hf
  · obtain ⟨o, ho'⟩ := h.finished hf
    simp [hp] at ho'

theorem done_of_cancel (hc : s.cancelled = false) (h : s.cancel.1 = false) : s.done = true := by
  unfold cancel at h
  split at h
  case isTrue ht => simp_all [done]
  split at h
  case isTrue => simp at h
  split at h
  case h_4 hf => simp [done, futureDone, hf]
  all_goals simp at h

theorem reaches_coherent (r : Machine.Reaches (step cfg) (Settles cfg) (initial cfg) s) : Balanced cfg s ∧ Coherent s :=
  r.invariant (I := fun s => Balanced cfg s ∧ Coherent s)
    (fun h ha e => ⟨h.1.step e, h.2.step h.1 ha e⟩) ⟨initial_balanced, initial_coherent⟩

-- Once `done` has answered true, or `cancel` false to a request that nobody has cancelled, the request stays
-- done and opens no native call, in every run in which the processing of a successful response does not fail
-- with an exception that looks retriable.
theorem done_permanent {cfg : Config} {s t : Request} (r : Machine.Reaches (step cfg) (Settles cfg) (initial cfg) s)
    (hd : s.done = true ∨ (s.cancelled = false ∧ s.cancel.1 = false))
    (r' : Machine.Reaches (step cfg) (Settles cfg) s t) : t.done = true ∧ t.calls.length = s.calls.length := by
  obtain ⟨hb, hc⟩ := reaches_coherent r
  have hd : s.done = true := hd.elim id fun h => done_of_cancel h.1 h.2
  exact r'.invariant_within (I := fun u => Balanced cfg u ∧ Coherent u)
    (J := fun u => u.done = true ∧ u.calls.length = s.calls.length)
    (fun h ha e => ⟨h.1.step e, h.2.step h.1 ha e⟩)
    (fun h hJ ha e => ⟨done_step h.2 ha e hJ.1, (calls_step_of_done h.2 e hJ.1).trans hJ.2⟩)
    ⟨hb, hc⟩ ⟨hd, rfl⟩

def afterLateCancel : Request := (step plainConfig afterRetry .cancel).getD afterRetry

theorem done_permanent_afterRetry : afterRetry.done = true ∧ afterLateCancel.done = true := by
  have hr : Machine.run (Machine.restrict (step plainConfig) (Settles plainConfig)) (initial plainConfig)
      retriedOnce = some afterRetry := by decide
  have hr' : Machine.run (Machine.restrict (step plainConfig) (Settles plainConfig)) afterRetry [.cancel] =
      some afterLateCancel := by decide
  have hd : afterRetry.done = true := by decide
  exact ⟨hd, (done_permanent (.of_restricted_run hr) (.inl hd) (.of_restricted_run hr')).1⟩

-- The result wrapper raises an exception that looks retriable, such as an `OSError` on a reset connection, after
-- the successful response was published.
def toPublished : List Event :=
  [.submit 0 true, .dispatch true, .start 0 false, .attempt .opens noTime none, .nativeDone .success,
    .resume noTime none]

def published : Request :=
  (Machine.run (step plainConfig) (initial plainConfig) toPublished).getD (initial plainConfig)

def wrapperRaises : List Event :=
  [.processed (.raises true (.exception (.other true))) noTime none, .attempt .opens noTime none]

theorem done_permanent_wrapperRaises :
    Machine.run (step plainConfig) (initial plainConfig) toPublished = some published ∧
    published.done = true ∧ published.calls.length = 1 ∧
    (Machine.run (step plainConfig) published wrapperRaises).any
      (fun t => t.done = false ∧ t.calls.length = 2) = true := by
  decide

end Request

end Aio
