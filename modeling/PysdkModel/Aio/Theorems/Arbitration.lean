import PysdkModel.Aio.Theorems.Finality

-- Which of several simultaneous outcomes a request has: the response of a native call, its error, or a
-- cancellation.

namespace Aio

namespace Request

variable {cfg : Config} {s t : Request} {source : Source} {r : Raised} {e : RpcError} {ts : Times}
  {canRetry : Option Bool}

theorem structuredRetry_of_retriable (hu : e.convert.isUnauthenticated = true) (h : e.convert.isRetriable = true) :
    e.structuredRetry = some true := by
  cases hr : e.rich with
  | malformed => simp [RpcError.convert, hr, Failure.isUnauthenticated] at hu
  | missing =>
    simp only [RpcError.convert, hr, Failure.isUnauthenticated, decide_eq_true_eq] at hu
    simp [RpcError.convert, hr, Failure.isRetriable, RequestStatus.isRetriable, retryHint, hu,
      StatusCode.isRetriable] at h
  | decoded serviceErrors =>
    simp only [RpcError.convert, hr, Failure.isUnauthenticated, decide_eq_true_eq] at hu
    cases hh : retryHint serviceErrors with
    | none =>
      simp [RpcError.convert, hr, Failure.isRetriable, RequestStatus.isRetriable, hh, hu,
        StatusCode.isRetriable] at h
    | some retry =>
      simp only [RpcError.convert, hr, Failure.isRetriable, RequestStatus.isRetriable, hh, Option.getD_some] at h
      simp [RpcError.structuredRetry, hr, hh, h]

def Raised.code : Raised → Option StatusCode
  | .rpc e => some e.code
  | .exception _ => none

-- An UNAUTHENTICATED error that is left to the authorization loop was announced as such: it arrived before the
-- request deadline, and its rich status does not ask for a retry of its own.
def Announced (cfg : Config) (s : Request) (now : Nat) : Option Native → Prop
  | some (.error e) =>
    defers cfg e.convert = true → timeLeft s.deadline now = true ∧ e.structuredRetry ≠ some true
  | _ => True

-- The condition on a run: the processing of a response fails for good and not as a native cancellation, and the
-- UNAUTHENTICATED errors of native calls are announced.
def Orderly (cfg : Config) (s : Request) : Event → Prop
  | .processed (.raises _ r) _ _ => r.IsFinal cfg ∧ r.code ≠ some .cancelled
  | .resume ts _ => Announced cfg s ts.classify s.outcome
  | .attempt (.raises (.rpc e) _) _ _ => defers cfg e.convert = true → e.structuredRetry ≠ some true
  | a => Settles cfg s a

instance (cfg : Config) (s : Request) (now : Nat) (o : Option Native) : Decidable (Announced cfg s now o) :=
  match o with
  | some (.error e) => inferInstanceAs (Decidable
    (defers cfg e.convert = true → timeLeft s.deadline now = true ∧ e.structuredRetry ≠ some true))
  | none | some .success | some .cancelled => .isTrue trivial

instance (cfg : Config) (s : Request) (a : Event) : Decidable (Orderly cfg s a) :=
  match a with
  | .processed (.raises _ r) _ _ => inferInstanceAs (Decidable (r.IsFinal cfg ∧ r.code ≠ some .cancelled))
  | .resume ts _ => inferInstanceAs (Decidable (Announced cfg s ts.classify s.outcome))
  | .attempt (.raises (.rpc e) _) _ _ =>
    inferInstanceAs (Decidable (defers cfg e.convert = true → e.structuredRetry ≠ some true))
  | .start now providerRaises => inferInstanceAs (Decidable (Settles cfg s (.start now providerRaises)))
  | .processed .response _ _ | .attempt .opens _ _ | .attempt .foreignLoop _ _
  | .attempt (.raises (.exception _) _) _ _ | .submit .. | .dispatch _ | .abandon | .releaseIfUnstarted
  | .authorize _ | .authenticated .. | .nativeDone _ | .cancelTask | .deliver | .publish | .cancel
  | .expire _ => .isTrue trivial

variable {a : Event}

theorem Orderly.toSettles (h : Orderly cfg s a) : Settles cfg s a := by
  cases a with
  | processed p _ _ => cases p with
    | response => trivial
    | raises _ _ => exact h.1
  | attempt how _ _ => trivial
  | resume _ _ => trivial
  | start _ _ => exact h
  | _ => trivial

theorem Orderly.of_error (h : Orderly cfg s (.resume ts canRetry)) (he : s.outcome = some (.error e))
    (hd : defers cfg e.convert = true) : timeLeft s.deadline ts.classify = true ∧ e.structuredRetry ≠ some true := by
  simp only [Orderly, he] at h
  exact h hd

@[simp]
def Phase.isCalling : Phase → Bool
  | .calling | .shielded => true
  | _ => false

-- The flags of a request that has not ended, in orderly runs: no retry decision is left over, a call that is
-- marked as ended is the one that the coroutine awaits, and during a call a cancellation that was not accepted
-- through the future is one that was recorded for a call that has ended.
structure Clear (s : Request) : Prop where
  pending : (∀ o, s.phase ≠ .ended o) → s.retryDecisionPending = false
  attempt : (∀ o, s.phase ≠ .ended o) → s.nativeAttemptTerminal = true →
    s.phase.isCalling = true ∧ s.outcome.isSome = true
  recorded : s.phase.isCalling = true → s.future ≠ some .cancelled → s.cancelled = true →
    s.cancelAfterTerminalAttempt = true
  status : s.phase.isCalling = true → s.status = none

theorem initial_clear : Clear (initial cfg) := by
  constructor <;> simp [initial]

namespace Clear

theorem of_ended {o : Outcome} (h : s.phase = .ended o) : Clear s := by
  constructor <;> simp [h]

theorem of_quiet (hp : t.retryDecisionPending = false) (ha : t.nativeAttemptTerminal = false)
    (hc : t.phase.isCalling = false) : Clear t := by
  constructor <;> simp [-Phase.isCalling, hp, ha, hc]

theorem quiet (h : Clear s) (ho : ∀ o, s.phase ≠ .ended o) (hc : s.phase.isCalling = false) :
    s.retryDecisionPending = false ∧ s.nativeAttemptTerminal = false := by
  refine ⟨h.pending ho, ?_⟩
  by_contra ha
  simp only [(h.attempt ho (by simpa using ha)).1, Bool.true_eq_false] at hc

theorem fail (h : Clear s) (hp : ∀ o, s.phase ≠ .ended o)
    (hr : ∀ e, r = .rpc e → defers cfg e.convert = true → e.structuredRetry ≠ some true)
    (hx : ∀ f, r = .exception f → s.nativeAttemptTerminal = false) : Clear (fail cfg s source r ts canRetry) := by
  rcases fail_cases cfg s source r ts canRetry with ⟨hw, -, ht⟩ | ⟨⟨o, ho⟩, -⟩ | ⟨-, -, ht⟩
  case inr.inl => exact of_ended ho
  case inr.inr =>
    exact of_quiet ht.pending ht.attempt (by simp [ht.phase])
  case inl =>
    have hk : ((classifyRaised cfg s r ts.classify).retryDecisionPending && defers cfg r.failure) = false ∧
        ((classifyRaised cfg s r ts.classify).nativeAttemptTerminal && defers cfg r.failure) = false := by
      cases r with
      | exception f => simp [classifyRaised, h.pending hp, hx f rfl]
      | rpc err =>
        -- a deferred error is not retried by this loop
        have hd : defers cfg (Raised.rpc err).failure = false := by
          by_contra hd
          simp only [Bool.not_eq_false] at hd
          have hu := hd
          simp only [defers, wantsRetry, Bool.and_eq_true] at hu hw
          exact hr err rfl hd (structuredRetry_of_retriable hu.2 hw.1.1.2)
        simp [hd]
    rw [ht]
    exact of_quiet hk.1 hk.2 rfl

theorem submit (h : Clear s) (hp : s.phase = .unsubmitted) (now : Nat) (accepted : Bool) :
    Clear (submit cfg s now accepted) := by
  obtain ⟨h₁, h₂⟩ := h.quiet (by simp [hp]) (by simp [hp])
  unfold Request.submit
  split
  · exact of_quiet h₁ h₂ rfl
  · exact { h with }

theorem dispatch (h : Clear s) (hp : s.phase = .queued) (created : Bool) : Clear (s.dispatch created) := by
  obtain ⟨h₁, h₂⟩ := h.quiet (by simp [hp]) (by simp [hp])
  unfold Request.dispatch
  repeat' split
  all_goals exact of_quiet h₁ h₂ rfl

theorem start (h : Clear s) (hp : s.phase = .created) (now : Nat) (providerRaises : Bool) :
    Clear (start cfg s now providerRaises) := by
  obtain ⟨h₁, h₂⟩ := h.quiet (by simp [hp]) (by simp [hp])
  unfold Request.start
  dsimp only
  repeat' split
  all_goals exact of_quiet h₁ h₂ rfl

theorem authorize (h : Clear s) (hp : s.phase = .authorizing) (now : Nat) : Clear (s.authorize now) := by
  obtain ⟨h₁, h₂⟩ := h.quiet (by simp [hp]) (by simp [hp])
  unfold Request.authorize
  dsimp only
  split <;> exact of_quiet h₁ h₂ rfl

theorem authenticated (h : Clear s) (hp : s.phase = .authenticating) (a : Authenticated) (now : Nat) :
    Clear (authenticated cfg s a now) := by
  obtain ⟨h₁, h₂⟩ := h.quiet (by simp [hp]) (by simp [hp])
  unfold Request.authenticated
  cases a with
  | ok => exact of_quiet h₁ h₂ rfl
  | raises _ =>
    dsimp only
    repeat' split
    case isTrue => exact of_ended rfl
    all_goals exact of_quiet h₁ h₂ rfl

theorem attemptCall (h : Clear s) (hp : s.phase = .attempting) (how : Send)
    (hr : ∀ e leased, how = .raises (.rpc e) leased → defers cfg e.convert = true → e.structuredRetry ≠ some true) :
    Clear (attemptCall cfg s how ts canRetry) := by
  obtain ⟨h₁, h₂⟩ := h.quiet (by simp [hp]) (by simp [hp])
  unfold Request.attemptCall
  split
  case isTrue => exact of_ended rfl
  case isFalse hc =>
    split
    case isTrue => exact of_ended rfl
    have hq : Clear { s with attempt := s.attempt + 1, status := none, nativeCode := none } :=
      of_quiet h₁ h₂ (by simp [hp])
    have ho : ∀ o, s.phase ≠ .ended o := by simp [hp]
    cases how with
    | opens =>
      exact {
        pending := fun _ => h₁
        attempt := fun _ ha => by
          have ha : s.nativeAttemptTerminal = true := ha
          simp [h₂] at ha
        recorded := fun _ _ hc' => absurd hc' hc
        status := fun _ => rfl }
    | raises r leased =>
      have hr' : ∀ e, r = .rpc e → defers cfg e.convert = true → e.structuredRetry ≠ some true := by
        rintro e rfl
        exact hr e leased rfl
      cases leased with
      | false => exact hq.fail ho hr' fun _ _ => h₂
      | true => exact fail (s := Request.acquire _) { hq with } ho hr' fun _ _ => h₂
    | foreignLoop =>
      exact fail (s := Request.release (Request.acquire _) true) { hq with } ho (by simp) fun _ _ => h₂

theorem isCalling_of_running (hb : Balanced cfg s) (hc : s.call.isSome = true) (hn : s.outcome = none)
    (ho : ∀ o, s.phase ≠ .ended o) : s.phase.isCalling = true := by
  by_contra hp
  have ha : AllEnded s := hb.atRest (fun e => hp (by simp [e]))
    (fun e => hp (by simp [e])) ho
  obtain ⟨c, hc⟩ := Option.isSome_iff_exists.mp hc
  have := ha c (by simp [Request.calls, hc])
  simp [Request.outcome, hc] at hn
  simp [hn] at this

theorem nativeDone (h : Clear s) (hb : Balanced cfg s) (hc : s.call.isSome = true) (hn : s.outcome = none)
    (o : Native) : Clear (s.markNativeAttemptTerminal o) :=
  { h with
    attempt := by
      intro ho _
      obtain ⟨c, hc'⟩ := Option.isSome_iff_exists.mp hc
      exact ⟨isCalling_of_running (s := s) hb hc hn ho, by simp [markNativeAttemptTerminal, Request.outcome, hc']⟩ }

theorem of_shielded (h : Clear s) (hp : s.phase = .calling) : Clear { s with phase := .shielded } :=
  { h with
    pending := fun _ => h.pending (by simp [hp])
    attempt := fun _ ha => ⟨rfl, (h.attempt (by simp [hp]) ha).2⟩
    recorded := fun _ => h.recorded (by simp [hp])
    status := fun _ => h.status (by simp [hp]) }

theorem resume {o : Native} (h : Clear s) (hp : s.phase = .calling ∨ s.phase = .shielded)
    (hr : ∀ e, o = .error e → defers cfg e.convert = true → e.structuredRetry ≠ some true) :
    Clear (resume cfg s o ts canRetry) := by
  have ho : ∀ o, s.phase ≠ .ended o := by rcases hp with hp | hp <;> simp [hp]
  cases o with
  | success => exact of_quiet (h.pending ho) rfl rfl
  | error e =>
    refine h.fail ho ?_ (by simp)
    rintro e' ⟨⟩
    exact hr e rfl
  | cancelled =>
    unfold Request.resume
    dsimp only
    split
    case isTrue hc =>
      simp only [Bool.and_eq_true, decide_eq_true_eq] at hc
      exact h.of_shielded hc.1
    case isFalse => exact of_ended rfl

theorem deliver (h : Clear s) (e : s.deliver = some t) : Clear t := by
  have h' : Clear { s with taskCancel := .delivered } := { h with }
  unfold Request.deliver at e
  dsimp only at e
  split at e <;> cases e
  case h_3 hp =>
    split
    · exact h'.of_shielded hp
    · exact of_ended rfl
  case h_4 hp =>
    obtain ⟨h₁, h₂⟩ := h.quiet (by simp [hp]) (by simp [hp])
    exact of_quiet h₁ h₂ rfl
  all_goals exact of_ended rfl

theorem cancel (h : Clear s) (hc : Coherent s) : Clear s.cancel.2 := by
  unfold Request.cancel
  split
  case isTrue => exact h
  split
  case isTrue => exact { h with recorded := fun _ _ _ => rfl }
  split
  case h_1 hf =>
    exact { h with recorded := by simp [hc.submitted.mp hf] }
  case h_2 => exact { h with recorded := fun _ hf => absurd rfl hf }
  case h_3 hf => exact { h with recorded := fun _ hf' => absurd hf hf' }
  case h_4 => exact h

theorem expire (h : Clear s) (hc : Coherent s) (synchronous : Bool) : Clear (s.expire synchronous) := by
  have hw : Clear s.expireWait.2 := by
    unfold expireWait
    split
    case isTrue => exact h
    split
    case isTrue => exact { h with }
    split
    · split
      · exact h
      · exact { h with recorded := fun _ _ _ => rfl }
    · exact h.cancel hc
  unfold Request.expire
  split
  · exact { hw with recorded := fun _ hf => absurd rfl hf }
  · exact hw

end Clear

theorem Clear.step (h : Clear s) (hb : Balanced cfg s) (hc : Coherent s) (ha : Orderly cfg s a)
    (e : step cfg s a = some t) : Clear t := by
  cases a <;> simp only [Request.step, Option.ite_none_right_eq_some, Option.some.injEq] at e
  case submit now accepted => exact e.2 ▸ h.submit e.1.1 now accepted
  case dispatch created => exact e.2 ▸ h.dispatch e.1 created
  case abandon => exact e.2 ▸ { h with recorded := fun _ hf => absurd rfl hf }
  case releaseIfUnstarted =>
    rw [← e.2]
    unfold releaseIfUnstarted
    split
    · exact h
    · exact { h with }
  case start now providerRaises => exact e.2 ▸ h.start e.1.1 now providerRaises
  case authorize now => exact e.2 ▸ h.authorize e.1.1 now
  case authenticated a now => exact e.2 ▸ h.authenticated e.1.1 a now
  case attempt how ts canRetry =>
    obtain ⟨⟨hp, -⟩, rfl⟩ := e
    have h' : Clear { s with clock := ts.authorize } := { h with }
    refine h'.attemptCall hp how ?_
    rintro e leased rfl
    exact ha
  case nativeDone o => exact e.2 ▸ h.nativeDone hb e.1.1 e.1.2 o
  case resume ts canRetry =>
    obtain ⟨o, ho, hp, -, rfl⟩ := step_resume e
    have h' : Clear { s with clock := ts.authorize } := { h with }
    refine h'.resume hp ?_
    rintro err rfl hd
    exact (ha.of_error ho hd).2
  case processed p ts canRetry =>
    obtain ⟨-, rfl⟩ := e
    cases p with
    | response => exact of_ended rfl
    | raises converted r =>
      obtain ⟨o, ho⟩ := (endsWith_fail ha.1 { s with clock := ts.authorize, status := _ } .processing ts canRetry).1
      exact of_ended ho
  case cancelTask => exact e ▸ { h with }
  case deliver => exact h.deliver e.2
  case publish =>
    split at e <;> cases e
    case h_1 o ho => exact of_ended (o := o) (by unfold copyOutcome; split <;> exact ho)
  case cancel => exact e ▸ h.cancel hc
  case expire synchronous => exact e.2 ▸ h.expire hc synchronous

structure Regular (cfg : Config) (s : Request) : Prop where
  balanced : Balanced cfg s
  coherent : Coherent s
  clear : Clear s

theorem Regular.step (h : Regular cfg s) (ha : Orderly cfg s a) (e : step cfg s a = some t) : Regular cfg t where
  balanced := h.balanced.step e
  coherent := h.coherent.step h.balanced ha.toSettles e
  clear := h.clear.step h.balanced h.coherent ha e

theorem reaches_regular (r : Machine.Reaches (step cfg) (Orderly cfg) (initial cfg) s) : Regular cfg s :=
  r.invariant (I := Regular cfg) Regular.step ⟨initial_balanced, initial_coherent, initial_clear⟩

-- The coroutine has ended with an outcome that it has published, and no cancellation is reported.
structure Settled (o : Outcome) (s : Request) : Prop where
  phase : s.phase = .ended o
  terminal : s.nativeTerminal = true
  pending : s.retryDecisionPending = false
  future : s.future ≠ some .cancelled
  kept : s.cancelled = false
  code : s.nativeCode ≠ some .cancelled
  status : s.status ≠ some .cancelled

namespace Settled

variable {o : Outcome}

theorem isCancelled (h : Settled o s) : s.isCancelled = false := by
  simp [Request.isCancelled, h.future, h.kept, h.code, h.status]

theorem expire (h : Settled o s) (synchronous : Bool) : Settled o (s.expire synchronous) := by
  have he : s.expireWait = (true, s) ∨ s.expireWait = (true, { s with deadlineExpired := true }) := by
    cases hf : s.futureDone with
    | true => exact .inl <| by simp [expireWait, hf, h.future]
    | false => exact .inr <| by simp [expireWait, hf, h.terminal, h.pending]
  rcases he with he | he <;>
    simp only [Request.expire, he, Bool.not_true, Bool.and_false, Bool.false_and, Bool.false_eq_true, if_false]
  · exact h
  · exact { h with }

theorem step (h : Settled o s) (ho : o ≠ .taskCancelled) (e : step cfg s a = some t) : Settled o t := by
  cases a <;> simp only [Request.step, Option.ite_none_right_eq_some, Option.some.injEq, h.phase, reduceCtorEq,
    false_and, or_self] at e
  case releaseIfUnstarted =>
    rw [← e.2]
    unfold Request.releaseIfUnstarted
    split
    · exact h
    · exact { h with }
  case nativeDone o => exact e.2 ▸ { h with }
  case resume ts canRetry => split at e <;> simp at e
  case cancelTask => exact e ▸ { h with }
  case deliver => simp [Request.deliver, h.phase] at e
  case publish =>
    rw [← e]
    unfold copyOutcome
    split
    · exact { h with future := by simp }
    · exact h
  case cancel =>
    have hc : s.cancel = (false, s) := by simp [cancel, h.terminal, h.pending]
    rw [← e, hc]
    exact h
  case expire synchronous => exact e.2 ▸ h.expire synchronous

theorem fail (hw : wantsRetry cfg (classifyRaised cfg s r ts.classify) r.failure ts.decide = false)
    (hd : defers cfg r.failure = false) (ht : (classifyRaised cfg s r ts.classify).nativeTerminal = true)
    (hf : s.future ≠ some .cancelled) (hc : (classifyRaised cfg s r ts.classify).nativeCode ≠ some .cancelled)
    (hs : (classifyRaised cfg s r ts.classify).status ≠ some .cancelled) :
    Settled (.failed source r.failure) (fail cfg s source r ts canRetry) := by
  have hd' : (cfg.provider && r.failure.isUnauthenticated) = false := hd
  have e := fail_fails s source ts canRetry hw hd
  exact { e with
    terminal := by simp [e.terminal, Request.decide, hw, ht]
    pending := e.pending (by simp [Request.decide, hd'])
    future := by rwa [(Kept.fail ..).future]
    kept := e.kept (by simp [Request.decide, hw, hd', ht])
    code := by simpa [e.code, Request.decide, hw] using hc
    status := by simpa [e.status, Request.decide] using hs }

theorem fail_rpc (hw : wantsRetry cfg (classify cfg s e ts.classify) e.convert ts.decide = false)
    (hd : defers cfg e.convert = false) (hf : s.future ≠ some .cancelled) (hc : e.code ≠ .cancelled)
    (hs : s.status ≠ some .cancelled) :
    Settled (.failed source e.convert) (Request.fail cfg s source (.rpc e) ts canRetry) := by
  refine fail (r := .rpc e) hw hd rfl hf ?_ ?_
  case refine_1 => simpa [classifyRaised, classify] using hc
  case refine_2 =>
    simp only [classifyRaised, classify]
    split
    · exact hs
    · simpa using hc

theorem fail_givesUp (hw : wantsRetry cfg (classify cfg s e ts.classify) e.convert ts.decide = false)
    (hd : defers cfg e.convert = true) (hg : GivesUp s ts.authorize canRetry) (hf : s.future ≠ some .cancelled)
    (hs : s.status ≠ some .cancelled) :
    Settled (reported cfg s source e.convert ts.authorize canRetry)
      (Request.fail cfg s source (.rpc e) ts canRetry) := by
  have hc : e.code = .unauthenticated := by
    simp only [defers, Bool.and_eq_true] at hd
    exact RpcError.code_of_isUnauthenticated hd.2
  have hw : wantsRetry cfg (classifyRaised cfg s (.rpc e) ts.classify) (Raised.rpc e).failure ts.decide = false := hw
  have ht : (classifyRaised cfg s (.rpc e) ts.classify).nativeTerminal = true := rfl
  have hn : (classifyRaised cfg s (.rpc e) ts.classify).nativeCode = some e.code := rfl
  have h := Request.fail_givesUp s source ts canRetry hw hd hg
  exact { h with
    terminal := by simp [h.terminal, Request.decide, hw, ht]
    pending := h.pending rfl
    future := by rwa [(Kept.fail ..).future]
    kept := h.kept rfl
    code := by simp [h.code, Request.decide, hw, hn, hc]
    status := by
      rw [h.status]
      simp only [Request.decide, classifyRaised, classify, hc]
      split
      · exact hs
      · simp }

end Settled

theorem ended_of_final (hw : wantsRetry cfg (classify cfg s e ts.classify) e.convert ts.decide = false)
    (hg : defers cfg e.convert = true → GivesUp s ts.authorize canRetry) :
    (fail cfg s source (.rpc e) ts canRetry).phase =
      .ended (reported cfg s source e.convert ts.authorize canRetry) := by
  cases hd : defers cfg e.convert with
  | false =>
    simp only [reported, hd, Bool.false_and, Bool.false_eq_true, if_false]
    exact (fail_fails (r := .rpc e) s source ts canRetry hw hd).phase
  | true => exact (fail_givesUp (r := .rpc e) s source ts canRetry hw hd (hg hd)).phase

theorem settled_of_final (hw : wantsRetry cfg (classify cfg s e ts.classify) e.convert ts.decide = false)
    (hg : defers cfg e.convert = true → GivesUp s ts.authorize canRetry) (hf : s.future ≠ some .cancelled)
    (hc : e.code ≠ .cancelled) (hs : s.status ≠ some .cancelled) :
    Settled (reported cfg s source e.convert ts.authorize canRetry)
      (fail cfg s source (.rpc e) ts canRetry) := by
  cases hd : defers cfg e.convert with
  | false =>
    have h : Settled (.failed source e.convert) (fail cfg s source (.rpc e) ts canRetry) := .fail_rpc hw hd hf hc hs
    simpa [reported, hd] using h
  | true => exact .fail_givesUp hw hd (hg hd) hf hs

-- A cancellation was accepted, or the native attempts are over: no further one is opened.
def Blocked (s : Request) : Prop := s.cancelled = true ∨ s.phase.isOpen = false

namespace Blocked

theorem of_ended {o : Outcome} (h : t.phase = .ended o) : Blocked t := .inr <| by simp [h]

theorem endsWith_fail (h : s.cancelled = true) (ht : ts.classify ≤ ts.decide)
    (hd : defers cfg e.convert = true → timeLeft s.deadline ts.classify = true) :
    EndsWith s (fail cfg s source (.rpc e) ts canRetry) := by
  have hc (hp : (classify cfg s e ts.classify).retryDecisionPending = true) :
      (classify cfg s e ts.classify).cancelled = true := by
    have hc' : (classify cfg s e ts.classify).cancelled = (s.cancelled && !(s.cancelAfterTerminalAttempt &&
      !(classify cfg s e ts.classify).retryDecisionPending)) := rfl
    simp [hc', h, hp]
  rcases fail_cases cfg s source (.rpc e) ts canRetry with ⟨hw, hr, -⟩ | ht | ⟨hw, hu, ht⟩
  case inr.inl => exact ht
  case inl =>
    have hp := pending_of_wantsRetry ht hw
    have ht : (classify cfg s e ts.classify).terminalAttempt = true := rfl
    simp [classifyRaised, ht, hp, hc hp] at hr
  case inr.inr =>
    have hu' := hu
    simp only [defers, Raised.failure, Bool.and_eq_true] at hu'
    have hp : (classify cfg s e ts.classify).retryDecisionPending = true := by
      simp [classify, hd hu, hu'.1, RpcError.code_of_isUnauthenticated hu'.2]
    have hr := ht.rejected
    simp [Request.decide, classifyRaised, Raised.failure, hp, hc hp, hu'] at hr

theorem cancel (h : Blocked s) : Blocked s.cancel.2 := by
  unfold Request.cancel
  repeat' split
  all_goals first | exact h | exact .inl rfl

theorem expire (h : Blocked s) (synchronous : Bool) : Blocked (s.expire synchronous) := by
  have hw : Blocked s.expireWait.2 := by
    unfold expireWait
    repeat' split
    all_goals first | exact h | exact .inl rfl | exact h.cancel
  unfold Request.expire
  split <;> exact hw

theorem deliver (h : Blocked s) (e : s.deliver = some t) : Blocked t := by
  unfold Request.deliver at e
  dsimp only at e
  split at e <;> cases e
  case h_3 hp =>
    have hc : s.cancelled = true := h.resolve_right (by simp [hp])
    split
    · exact .inl hc
    · exact of_ended rfl
  case h_4 => exact .inr rfl
  all_goals exact of_ended rfl

theorem step (h : Blocked s) (ha : Orderly cfg s a) (e : step cfg s a = some t) : Blocked t := by
  have hc (ho : s.phase.isOpen = true) : s.cancelled = true := h.resolve_right (ne_false_of_eq_true ho)
  cases a <;> simp only [Request.step, Option.ite_none_right_eq_some, Option.some.injEq] at e
  case submit now accepted =>
    rw [← e.2]
    unfold Request.submit
    split <;> exact .inl (hc <| by simp [e.1.1])
  case dispatch created =>
    rw [← e.2]
    unfold Request.dispatch
    repeat' split
    all_goals exact .inl (hc <| by simp [e.1])
  case abandon =>
    exact e.2 ▸ .inl (hc <| by rcases e.1.1 with hp | hp <;> simp [hp])
  case releaseIfUnstarted =>
    rw [← e.2]
    unfold Request.releaseIfUnstarted
    split <;> exact h
  case start now providerRaises =>
    have hc := hc (by simp [e.1.1])
    rw [← e.2]
    unfold Request.start
    dsimp only
    repeat' split
    all_goals first | exact of_ended rfl | exact .inl hc
  case authorize now =>
    have hc := hc (by simp [e.1.1])
    rw [← e.2]
    unfold Request.authorize
    dsimp only
    split <;> exact .inl hc
  case authenticated a now =>
    have hc := hc (by simp [e.1.1])
    rw [← e.2]
    unfold Request.authenticated
    cases a with
    | ok => exact .inl hc
    | raises _ =>
      dsimp only
      repeat' split
      case isTrue => exact of_ended rfl
      all_goals exact .inl hc
  case attempt how ts canRetry =>
    have hc := hc (by simp [e.1.1])
    rw [← e.2]
    simp only [Request.attemptCall, hc, if_true]
    exact of_ended rfl
  case nativeDone o => exact e.2 ▸ h
  case resume ts canRetry =>
    obtain ⟨o, ho, hp, ht, rfl⟩ := step_resume e
    have hc := hc (by rcases hp with hp | hp <;> simp [hp])
    cases o with
    | success => exact .inr rfl
    | error err =>
      have hf : EndsWith { s with clock := ts.authorize }
          (fail cfg { s with clock := ts.authorize } .native (.rpc err) ts canRetry) :=
        endsWith_fail hc ht.2.2.1 fun hd => (ha.of_error ho hd).1
      obtain ⟨o, ho'⟩ := hf.1
      exact of_ended ho'
    | cancelled =>
      unfold Request.resume
      dsimp only
      split
      · exact .inl hc
      · exact of_ended rfl
  case processed p ts canRetry =>
    obtain ⟨-, rfl⟩ := e
    cases p with
    | response => exact of_ended rfl
    | raises converted r =>
      obtain ⟨o, ho⟩ :=
        (Request.endsWith_fail ha.1 { s with clock := ts.authorize, status := _ } .processing ts canRetry).1
      exact of_ended ho
  case cancelTask => exact e ▸ h
  case deliver => exact h.deliver e.2
  case publish =>
    split at e <;> cases e
    unfold copyOutcome
    split <;> exact h
  case cancel => exact e ▸ h.cancel
  case expire synchronous => exact e.2 ▸ h.expire synchronous

theorem calls_step (h : Blocked s) (e : Request.step cfg s a = some t) :
    t.calls.length = s.calls.length := by
  rcases step_calls e with hl | ⟨hp, hc, -⟩
  · exact hl
  · rcases h with h | h <;> simp [hp, hc] at h

end Blocked

-- The awaited native call, the one after `n` others, has succeeded, and no cancellation was accepted through the
-- future before. Its success is not published yet.
structure Unpublished (n : Nat) (s : Request) : Prop where
  phase : s.phase = .calling ∨ s.phase = .shielded
  outcome : s.outcome = some .success
  attempt : s.nativeAttemptTerminal = true
  future : s.future = some .pending
  former : s.formerCalls.length = n

structure Publishing (n : Nat) (s : Request) : Prop where
  phase : s.phase = .completing ∨ s.phase = .recompleting
  terminal : s.nativeTerminal = true
  pending : s.retryDecisionPending = false
  future : s.future = some .pending
  kept : s.cancelled = false
  code : s.nativeCode = some .ok
  status : s.status = none
  former : s.formerCalls.length = n

variable {n : Nat}

theorem Unpublished.cancel (h : Unpublished n s) (hs : Regular cfg s) : Unpublished n s.cancel.2 := by
  have ht := hs.coherent.terminal (by rcases h.phase with hp | hp <;> simp [hp])
  cases hc : s.cancelled with
  | true => simpa [Request.cancel, hc] using h
  | false =>
    simp only [Request.cancel, hc, ht, h.attempt, Bool.false_and, Bool.or_self, Bool.false_eq_true, if_false,
      if_true]
    exact { h with attempt := rfl }

theorem Unpublished.expire (h : Unpublished n s) (hs : Regular cfg s) (synchronous : Bool) :
    Unpublished n (s.expire synchronous) := by
  have ht := hs.coherent.terminal (by rcases h.phase with hp | hp <;> simp [hp])
  have hf : s.futureDone = false := by simp [futureDone, h.future]
  have he : s.expireWait = (true, s) ∨ s.expireWait =
      (true, { s with deadlineExpired := true, cancelled := true, cancelAfterTerminalAttempt := true }) := by
    cases hc : s.cancelled <;> simp [expireWait, hf, ht, h.attempt, hc]
  rcases he with he | he <;>
    simp only [Request.expire, he, Bool.not_true, Bool.and_false, Bool.false_and, Bool.false_eq_true, if_false]
  · exact h
  · exact { h with }

theorem Unpublished.publishSuccess (h : Unpublished n s) (hs : Regular cfg s) : Publishing n s.publishSuccess where
  __ := h
  phase := .inl rfl
  terminal := rfl
  pending := hs.clear.pending (by rcases h.phase with hp | hp <;> simp [hp])
  kept := by
    have hc := hs.clear.recorded (by rcases h.phase with hp | hp <;> simp [hp])
      (by simp [h.future])
    cases hc' : s.cancelled with
    | false => simp [Request.publishSuccess, hc']
    | true => simp [Request.publishSuccess, hc hc']
  code := rfl
  status := hs.clear.status (by rcases h.phase with hp | hp <;> simp [hp])

theorem Unpublished.step (h : Unpublished n s) (hs : Regular cfg s)
    (e : step cfg s a = some t) : Unpublished n t ∨ Publishing n t := by
  have hp (p : Phase) (hc : p ≠ .calling) (hs : p ≠ .shielded) : s.phase ≠ p := by
    rintro rfl
    exact h.phase.elim hc hs
  cases a <;> simp only [Request.step, Option.ite_none_right_eq_some, Option.some.injEq, hp, ne_eq, reduceCtorEq,
    not_false_eq_true, false_and, or_self] at e
  case releaseIfUnstarted => simp [futureDone, h.future] at e
  case nativeDone o => simp [h.outcome] at e
  case resume ts canRetry =>
    simp only [h.outcome, Machine.guard_iff] at e
    obtain ⟨⟨-, ht⟩, rfl⟩ := e
    exact .inr { h.publishSuccess hs with }
  case cancelTask => exact .inl <| e ▸ { h with }
  case deliver =>
    have e := e.2
    rcases h.phase with hp | hp
    · simp only [Request.deliver, hp, h.attempt, if_true, Option.some.injEq] at e
      exact .inl <| e ▸ { h with phase := .inr rfl, attempt := rfl }
    · simp [Request.deliver, hp] at e
  case publish =>
    split at e
    case h_1 o ho => exact absurd ho (hp _ (by simp) (by simp))
    case h_2 => simp at e
  case cancel => exact .inl <| e ▸ h.cancel hs
  case expire synchronous => exact .inl <| e.2 ▸ h.expire hs synchronous

def OfSuccess (n : Nat) (o : Outcome) : Prop := o = .response n ∨ ∃ f, o = .failed .processing f

theorem Publishing.expire (h : Publishing n s) (synchronous : Bool) : Publishing n (s.expire synchronous) := by
  have he : s.expireWait = (true, { s with deadlineExpired := true }) := by
    simp [expireWait, futureDone, h.future, h.terminal, h.pending]
  simp only [Request.expire, he, Bool.not_true, Bool.and_false, Bool.false_and, Bool.false_eq_true, if_false]
  exact { h with }

theorem Publishing.fail (h : Publishing n s) (hr : r.IsFinal cfg)
    (hc : r.code ≠ some .cancelled) {status : Option StatusCode} (hs : status ≠ some .cancelled) :
    Settled (.failed .processing r.failure) (fail cfg { s with status := status } .processing r ts canRetry) := by
  have hw : wantsRetry cfg (classifyRaised cfg { s with status := status } r ts.classify) r.failure ts.decide
      = false := by
    simp [wantsRetry, hr.1]
  have hf : s.future ≠ some .cancelled := by simp [h.future]
  cases r with
  | exception f => exact .fail hw hr.2 h.terminal hf (by simp [classifyRaised, h.code]) hs
  | rpc e => exact .fail_rpc hw hr.2 hf (by simpa [Raised.code] using hc) hs

attribute [local simp] Request.complete

theorem Publishing.complete (h : Publishing n s) (p : Processed)
    (hp : ∀ converted r, p = .raises converted r → r.IsFinal cfg ∧ r.code ≠ some .cancelled) :
    ∃ o, Settled o (complete cfg s p ts canRetry) ∧ OfSuccess n o := by
  cases p with
  | response =>
    refine ⟨.response n, ?_, .inl rfl⟩
    exact { h with
      phase := by simp [h.former]
      future := by simp [release, h.future]
      code := by simp [release, h.code]
      status := by simp [release] }
  | raises converted r =>
    obtain ⟨hr, hc⟩ := hp converted r rfl
    refine ⟨.failed .processing r.failure, h.fail hr hc ?_, .inr ⟨_, rfl⟩⟩
    split <;> simp [h.status]

theorem Publishing.step (h : Publishing n s) (ha : Orderly cfg s a)
    (e : step cfg s a = some t) : Publishing n t ∨ ∃ o, Settled o t ∧ OfSuccess n o := by
  have hp (p : Phase) (hc : p ≠ .completing) (hs : p ≠ .recompleting) : s.phase ≠ p := by
    rintro rfl
    exact h.phase.elim hc hs
  cases a <;> simp only [Request.step, Option.ite_none_right_eq_some, Option.some.injEq, hp, ne_eq, reduceCtorEq,
    not_false_eq_true, false_and, or_self] at e
  case releaseIfUnstarted => simp [futureDone, h.future] at e
  case nativeDone o => exact .inl <| e.2 ▸ { h with }
  case resume ts canRetry => split at e <;> simp at e
  case processed p ts canRetry =>
    obtain ⟨-, rfl⟩ := e
    have h' : Publishing n { s with clock := ts.authorize } := { h with }
    refine .inr <| h'.complete p ?_
    rintro converted r rfl
    exact ha
  case cancelTask => exact .inl <| e ▸ { h with }
  case deliver =>
    have e := e.2
    rcases h.phase with hp | hp
    · simp only [Request.deliver, hp, Option.some.injEq] at e
      exact .inl <| e ▸ { h with phase := .inr rfl }
    · simp [Request.deliver, hp] at e
  case publish =>
    split at e
    case h_1 o ho => exact absurd ho (hp _ (by simp) (by simp))
    case h_2 => simp at e
  case cancel =>
    have hc : s.cancel = (false, s) := by simp [Request.cancel, h.terminal, h.pending]
    rw [← e, hc]
    exact .inl h
  case expire synchronous => exact .inl <| e.2 ▸ h.expire synchronous

-- A native call has succeeded before a cancellation was accepted through the future: the coroutine ends with
-- its response, or with the error of processing it.
def Won (n : Nat) (s : Request) : Prop :=
  Unpublished n s ∨ Publishing n s ∨ ∃ o, Settled o s ∧ OfSuccess n o

theorem Won.step (h : Won n s) (hs : Regular cfg s) (ha : Orderly cfg s a) (e : step cfg s a = some t) : Won n t := by
  rcases h with h | h | ⟨o, h, ho⟩
  · exact (h.step hs e).imp id .inl
  · exact .inr <| h.step ha e
  · refine .inr <| .inr ⟨o, h.step ?_ e, ho⟩
    rintro rfl
    simp [OfSuccess] at ho

def Times.at (now : Nat) : Times := ⟨now, now, now, now, now⟩

theorem Won.ends (h : Won n s) (hs : Regular cfg s) :
    ∃ t o, Machine.Reaches (Request.step cfg) (Orderly cfg) s t ∧ t.phase = .ended o ∧ OfSuccess n o := by
  have complete {s : Request} (h : Publishing n s) :
      ∃ t o, Machine.Reaches (Request.step cfg) (Orderly cfg) s t ∧ t.phase = .ended o ∧ OfSuccess n o := by
    have e : Request.step cfg s (.processed .response (.at s.clock) none) =
        some (Request.complete cfg { s with clock := s.clock } .response (.at s.clock) none) := by
      simp [Request.step, h.phase, Times.at, Times.InOrder]
    have ha : Orderly cfg s (.processed .response (.at s.clock) none) := trivial
    obtain ⟨o, ho, hw⟩ := (h.step ha e).resolve_left (fun h => by simpa using h.phase)
    exact ⟨_, o, .single ha e, ho.phase, hw⟩
  rcases h with h | h | ⟨o, h, ho⟩
  · have e : Request.step cfg s (.resume (.at s.clock) none) =
        some { s with clock := s.clock }.publishSuccess := by
      simp [Request.step, h.outcome, h.phase, Times.at, Times.InOrder, Request.resume]
    have ha : Orderly cfg s (.resume (.at s.clock) none) := by simp [Orderly, h.outcome, Announced]
    obtain ⟨t, o, r, ho⟩ := complete (h.publishSuccess hs)
    exact ⟨t, o, (Machine.Reaches.single ha e).trans r, ho⟩
  · exact complete h
  · exact ⟨s, o, .refl, h.phase, ho⟩

theorem phase_step_of_ended {o : Outcome} (h : s.phase = .ended o) (e : step cfg s a = some t) :
    t.phase = .ended o := by
  cases a <;> simp only [step, Option.ite_none_right_eq_some, Option.some.injEq, h, reduceCtorEq, false_and,
    or_self] at e
  case releaseIfUnstarted =>
    rw [← e.2]
    unfold releaseIfUnstarted
    split <;> exact h
  case nativeDone o => exact e.2 ▸ h
  case resume ts canRetry => split at e <;> simp at e
  case cancelTask => exact e ▸ h
  case deliver => simp [deliver, h] at e
  case publish =>
    rw [← e]
    unfold copyOutcome
    split <;> exact h
  case cancel => exact e ▸ (flagStep_cancel s).phase ▸ h
  case expire synchronous => exact e.2 ▸ (flagStep_expire s synchronous).phase ▸ h

theorem cancelled_of_cancel (h : s.cancel.1 = true) : s.cancel.2.cancelled = true := by
  unfold cancel at h ⊢
  split at h
  case isTrue => simp at h
  case isFalse hc =>
    rw [if_neg hc]
    split at h
    case isTrue hk => rw [if_pos hk]
    case isFalse hk =>
      rw [if_neg hk]
      split at h <;> first | rfl | simp at h

theorem won_of_nativeDone (hs : Regular cfg s) (e : step cfg s (.nativeDone .success) = some t)
    (ho : ∀ o, s.phase ≠ .ended o) (hf : s.future ≠ some .cancelled) : Won s.formerCalls.length t := by
  simp only [step, Machine.guard_iff] at e
  obtain ⟨⟨hc, hn⟩, rfl⟩ := e
  have hp : s.phase = .calling ∨ s.phase = .shielded := by
    have hp := Clear.isCalling_of_running hs.balanced hc hn ho
    cases hp' : s.phase <;> simp [hp'] at hp ⊢
  have hop : s.phase.isOpen = true := by rcases hp with hp | hp <;> simp [hp]
  have ha : Coherent.Active s := by rcases hp with hp | hp <;> simp [Coherent.Active, hp]
  obtain ⟨c, hc⟩ := Option.isSome_iff_exists.mp hc
  exact .inl {
    phase := hp
    outcome := by simp [markNativeAttemptTerminal, outcome, hc]
    attempt := by simp [markNativeAttemptTerminal, hs.coherent.terminal hop]
    future := (hs.coherent.future_pending_or_cancelled ha).resolve_right fun h => hf h.1
    former := rfl }

def Accepts (s t : Request) : Prop :=
  s.cancel = (true, t) ∨
    ∃ synchronous, s.future.isSome = true ∧ s.cancelled = false ∧ s.expire synchronous = t ∧ t.cancelled = true

theorem Accepts.blocked (h : Accepts s t) : Blocked t := by
  rcases h with h | ⟨-, -, -, -, h⟩
  · exact .inl <| by simpa [h] using cancelled_of_cancel (s := s) (by simp [h])
  · exact .inl h

theorem Accepts.step (cfg : Config) (h : Accepts s t) :
    ∃ a, Orderly cfg s a ∧ Request.step cfg s a = some t ∧ t.calls.length = s.calls.length := by
  rcases h with h | ⟨synchronous, hf, -, rfl, -⟩
  · refine ⟨.cancel, trivial, by simp [Request.step, h], ?_⟩
    simpa [h] using congrArg List.length (flagStep_cancel s).calls
  · refine ⟨.expire synchronous, trivial, by simp [Request.step, hf], ?_⟩
    exact congrArg List.length (flagStep_expire s synchronous).calls

-- Which outcome a request has, in every orderly run. First, a native call that succeeds before a cancellation was
-- accepted through the future determines the outcome, and no cancellation is reported then. Second, no native
-- call is opened once a cancellation was accepted. Third, a native error that neither loop retries is the outcome
-- for good, and is not reported as a cancellation.
theorem outcome_arbitrated {cfg : Config} {s s₁ t : Request}
    (r : Machine.Reaches (step cfg) (Orderly cfg) (initial cfg) s)
    (r' : Machine.Reaches (step cfg) (Orderly cfg) s₁ t) :
    (step cfg s (.nativeDone .success) = some s₁ → (∀ o, s.phase ≠ .ended o) → s.future ≠ some .cancelled →
      (∀ o, t.phase = .ended o → OfSuccess s.formerCalls.length o ∧ t.isCancelled = false) ∧
      ∃ u o, Machine.Reaches (step cfg) (Orderly cfg) t u ∧ u.phase = .ended o ∧
        OfSuccess s.formerCalls.length o) ∧
    (Accepts s s₁ → t.calls.length = s.calls.length) ∧
    (∀ e ts canRetry, s.outcome = some (.error e) → step cfg s (.resume ts canRetry) = some s₁ →
      wantsRetry cfg (classify cfg s e ts.classify) e.convert ts.decide = false →
      (defers cfg e.convert = true → GivesUp s ts.authorize canRetry) →
      t.phase = .ended (reported cfg s .native e.convert ts.authorize canRetry) ∧
      (s.future ≠ some .cancelled → e.code ≠ .cancelled → t.isCancelled = false)) := by
  have hs := reaches_regular r
  refine ⟨?success, ?accepted, ?error⟩
  case success =>
    intro e ho hf
    have hs₁ : Regular cfg s₁ := hs.step (a := .nativeDone .success) trivial e
    have ht : Regular cfg t ∧ Won s.formerCalls.length t :=
      r'.invariant (I := fun u => Regular cfg u ∧ Won s.formerCalls.length u)
        (fun h ha e => ⟨h.1.step ha e, h.2.step h.1 ha e⟩) ⟨hs₁, won_of_nativeDone hs e ho hf⟩
    refine ⟨fun o hp => ?_, ht.2.ends ht.1⟩
    rcases ht.2 with h | h | ⟨o', h, ho'⟩
    · rcases h.phase with h | h <;> simp [hp] at h
    · rcases h.phase with h | h <;> simp [hp] at h
    · cases hp.symm.trans h.phase
      exact ⟨ho', h.isCancelled⟩
  case accepted =>
    intro h
    obtain ⟨a, ha, e, hl⟩ := h.step cfg
    have hs₁ := hs.step ha e
    exact (r'.invariant_within (I := Regular cfg) (J := fun u => Blocked u ∧ u.calls.length = s.calls.length)
      Regular.step (fun hI hJ ha e => ⟨hJ.1.step ha e, (hJ.1.calls_step e).trans hJ.2⟩) hs₁
      ⟨h.blocked, hl⟩).2
  case error =>
    intro e ts canRetry he hr hw hd
    simp only [step, he, Machine.guard_iff] at hr
    obtain ⟨⟨hp, -⟩, rfl⟩ := hr
    have hc : s.phase.isCalling = true := by rcases hp with hp | hp <;> simp [hp]
    have hended : (resume cfg { s with clock := ts.authorize } (.error e) ts canRetry).phase =
        .ended (reported cfg s .native e.convert ts.authorize canRetry) :=
      ended_of_final (s := { s with clock := ts.authorize }) hw hd
    refine ⟨r'.invariant (I := fun u => u.phase = .ended (reported cfg s .native e.convert ts.authorize canRetry))
      (fun h _ e => phase_step_of_ended h e) hended, fun hf hc' => ?_⟩
    have h : Settled (reported cfg s .native e.convert ts.authorize canRetry)
        (resume cfg { s with clock := ts.authorize } (.error e) ts canRetry) :=
      settled_of_final (s := { s with clock := ts.authorize }) hw hd hf hc' (by simp [hs.clear.status hc])
    refine (r'.invariant (I := Settled _) (fun h _ e => h.step ?_ e) h).isCancelled
    unfold reported
    split <;> simp

def toCall : List Event := [.submit 0 true, .dispatch true, .start 0 false, .attempt .opens noTime none]

def inCall : Request := (Machine.run (step plainConfig) (initial plainConfig) toCall).getD (initial plainConfig)

def callSucceeded : Request := inCall.markNativeAttemptTerminal .success

def cancelledLate : List Event := [.cancel, .resume noTime none, .processed .response noTime none, .publish]

def afterCancelledLate : Request := (Machine.run (step plainConfig) callSucceeded cancelledLate).getD inCall

theorem outcome_arbitrated_cancelledLate : callSucceeded.cancel.1 = true ∧
    afterCancelledLate.phase = .ended (.response 0) ∧ afterCancelledLate.isCancelled = false := by
  have r : Machine.run (Machine.restrict (step plainConfig) (Orderly plainConfig)) (initial plainConfig) toCall =
      some inCall := by decide
  have r' : Machine.run (Machine.restrict (step plainConfig) (Orderly plainConfig)) callSucceeded cancelledLate =
      some afterCancelledLate := by decide
  have hp : afterCancelledLate.phase = .ended (.response 0) := by decide
  have h := (outcome_arbitrated (.of_restricted_run r) (.of_restricted_run r')).1 rfl
    (by simp [show inCall.phase = .calling from rfl]) (by decide)
  exact ⟨by decide, hp, (h.1 _ hp).2⟩

def authorizedConfig : Config where
  override := false
  retries := some 3
  timeout := some 10
  authTimeout := some 100
  authorizationApplies := some true
  provider := true

def unauthenticated (rich : RichStatus) : RpcError := ⟨.unauthenticated, rich, false, false, false, true⟩

def toFailedCall (rich : RichStatus) : List Event :=
  [.submit 0 true, .dispatch true, .start 0 false, .authorize 0, .authenticated .ok 0, .attempt .opens noTime none,
    .nativeDone (.error (unauthenticated rich))]

-- The three ways in which a run can be disorderly. The result wrapper raises an exception that looks retriable
-- after the success was published, and the coroutine ends with the error of another call. The error arrives after
-- the request deadline, and the authenticator allows another call although `cancel` has answered true. The rich
-- status of the error asks for a retry; the marks of that call remain, and `cancel` is accepted after the success
-- of the next call was published.
theorem outcome_arbitrated_disorderly :
    (Machine.run (step plainConfig) (initial plainConfig)
      (toPublished ++ wrapperRaises ++
        [.nativeDone (.error (unauthenticated .missing)), .resume noTime none])).any
      (fun t => t.phase = .ended (.failed .native (unauthenticated .missing).convert)) = true ∧
    (Machine.run (step authorizedConfig) (initial authorizedConfig) (toFailedCall .missing)).any
      (fun s => s.cancel.1 = true ∧ s.calls.length = 1 ∧
        (Machine.run (step authorizedConfig) s
          [.cancel, .resume (.at 20) (some true), .authorize 20, .authenticated .ok 20,
            .attempt .opens (.at 20) none]).any (fun t => t.calls.length = 2) = true) = true ∧
    (Machine.run (step authorizedConfig) (initial authorizedConfig)
      (toFailedCall (.decoded [.call]) ++ [.resume noTime (some true), .attempt .opens noTime none,
        .nativeDone .success, .resume noTime none])).any
      (fun s => s.phase = .completing ∧ s.isCancelled = false ∧ s.cancel.1 = true ∧
        s.cancel.2.isCancelled = true) = true := by
  decide

end Request

end Aio
