import Mathlib.Data.List.Nodup
import PysdkModel.Aio.Request

-- The transport leases of a request. A lease is held by the request or in the list of releases, never both;
-- a release for reuse needs that no native call runs, which holds wherever the coroutine is not in `await call`.

namespace Aio

namespace Request

variable {cfg : Config} {s t : Request}

def Leased (cfg : Config) (s : Request) (lease : Nat) : Prop :=
  if lease = 0 then cfg.override = true else lease < s.nextLease

def releasedLeases (s : Request) : List Nat := s.released.map Release.lease

structure Ledger (cfg : Config) (s : Request) : Prop where
  positive : 0 < s.nextLease
  nodup : s.releasedLeases.Nodup
  unreleased : ∀ lease, s.lease = some lease → lease ∉ s.releasedLeases
  covered : ∀ lease, Leased cfg s lease ↔ s.lease = some lease ∨ lease ∈ s.releasedLeases
  reusable : ∀ r ∈ s.released, r.discard = false → r.running = false

def AllEnded (s : Request) : Prop := ∀ c ∈ s.calls, c.outcome.isSome = true

theorem AllEnded.running_eq_false (h : AllEnded s) (lease : Nat) : s.running lease = false := by
  simp only [running, List.any_eq_false, Bool.and_eq_true, not_and, Bool.not_eq_true]
  intro c hc _
  simpa [← Option.not_isSome] using h c hc

structure FlagStep (s t : Request) : Prop where
  lease : t.lease = s.lease
  nextLease : t.nextLease = s.nextLease
  released : t.released = s.released
  call : t.call = s.call
  formerCalls : t.formerCalls = s.formerCalls
  phase : t.phase = s.phase
  started : t.started = s.started
  cleanedUp : t.cleanedUp = s.cleanedUp

namespace FlagStep

theorem calls (e : FlagStep s t) : t.calls = s.calls := by
  simp [Request.calls, e.call, e.formerCalls]

theorem trans {u : Request} (e₁ : FlagStep s t) (e₂ : FlagStep t u) : FlagStep s u where
  lease := e₂.lease.trans e₁.lease
  nextLease := e₂.nextLease.trans e₁.nextLease
  released := e₂.released.trans e₁.released
  call := e₂.call.trans e₁.call
  formerCalls := e₂.formerCalls.trans e₁.formerCalls
  phase := e₂.phase.trans e₁.phase
  started := e₂.started.trans e₁.started
  cleanedUp := e₂.cleanedUp.trans e₁.cleanedUp

theorem ledger (e : FlagStep s t) (h : Ledger cfg s) : Ledger cfg t where
  positive := e.nextLease ▸ h.positive
  nodup := by simpa [releasedLeases, e.released] using h.nodup
  unreleased := by simpa [releasedLeases, e.released, e.lease] using h.unreleased
  covered := by simpa [releasedLeases, Leased, e.released, e.lease, e.nextLease] using h.covered
  reusable := by simpa [e.released] using h.reusable

theorem allEnded (e : FlagStep s t) (h : AllEnded s) : AllEnded t := by
  simpa [AllEnded, e.calls] using h

end FlagStep

section FlagStep

variable (cfg : Config) (s : Request)

theorem flagStep_classify (e : RpcError) (now : Nat) : FlagStep s (classify cfg s e now) := by
  constructor <;> rfl

theorem flagStep_classifyRaised (r : Raised) (now : Nat) : FlagStep s (classifyRaised cfg s r now) := by
  cases r with
  | rpc e => exact flagStep_classify cfg s e now
  | exception _ => constructor <;> rfl

theorem flagStep_decide (f : Failure) (now : Nat) : FlagStep s (decide cfg s f now).2 := by
  constructor <;> rfl

theorem flagStep_resolve (retry : Bool) : FlagStep s (s.resolveAuthorizationRetry retry).2 := by
  constructor <;> rfl

theorem flagStep_requestTaskCancel : FlagStep s s.requestTaskCancel := by
  constructor <;> rfl

theorem flagStep_cancelFuture : FlagStep s s.cancelFuture :=
  { flagStep_requestTaskCancel { s with future := some .cancelled } with }

theorem flagStep_cancel : FlagStep s s.cancel.2 := by
  unfold cancel
  split
  case isTrue => constructor <;> rfl
  split
  case isTrue => constructor <;> rfl
  split
  case h_2 => exact { flagStep_cancelFuture s with }
  all_goals constructor <;> rfl

theorem flagStep_expireWait : FlagStep s s.expireWait.2 := by
  unfold expireWait
  repeat' split
  case isFalse.isFalse.isFalse => exact flagStep_cancel s
  all_goals constructor <;> rfl

theorem flagStep_expire (synchronous : Bool) : FlagStep s (s.expire synchronous) := by
  unfold expire
  split
  · exact (flagStep_expireWait s).trans (flagStep_cancelFuture _)
  · exact flagStep_expireWait s

end FlagStep

section Release

variable (s : Request) (discard : Bool)

@[simp] theorem release_lease : (s.release discard).lease = none := rfl
@[simp] theorem release_nextLease : (s.release discard).nextLease = s.nextLease := rfl
@[simp] theorem release_call : (s.release discard).call = s.call := rfl
@[simp] theorem release_formerCalls : (s.release discard).formerCalls = s.formerCalls := rfl
@[simp] theorem release_calls : (s.release discard).calls = s.calls := rfl
@[simp] theorem release_phase : (s.release discard).phase = s.phase := rfl
@[simp] theorem release_started : (s.release discard).started = s.started := rfl
@[simp] theorem release_cleanedUp : (s.release discard).cleanedUp = s.cleanedUp := rfl

end Release

theorem release_of_none (h : s.lease = none) (discard : Bool) : s.release discard = s := by
  cases s
  simp_all [release]

theorem acquire_of_none (h : s.lease = none) :
    s.acquire = { s with lease := some s.nextLease, nextLease := s.nextLease + 1 } := by
  simp [acquire, h]

theorem acquire_of_some {lease : Nat} (h : s.lease = some lease) : s.acquire = s := by
  cases s
  simp_all [acquire]

theorem AllEnded.release (h : AllEnded s) (discard : Bool) : AllEnded (s.release discard) := h

theorem AllEnded.acquire (h : AllEnded s) : AllEnded s.acquire := h

theorem step_resume {ts : Times} {canRetry : Option Bool} (e : step cfg s (.resume ts canRetry) = some t) :
    ∃ o, s.outcome = some o ∧ (s.phase = .calling ∨ s.phase = .shielded) ∧ ts.InOrder s.clock ∧
      resume cfg { s with clock := ts.authorize } o ts canRetry = t := by
  simp only [step] at e
  split at e
  case h_1 o ho =>
    obtain ⟨⟨hp, ht⟩, e⟩ := Machine.guard_iff.mp e
    exact ⟨o, ho, hp, ht, e⟩
  case h_2 => cases e

theorem leaveRetryLoop_cases (cfg : Config) (s : Request) (f : Failure) (now : Nat) :
    leaveRetryLoop cfg s f now = s ∨ ∃ discard, leaveRetryLoop cfg s f now = s.release discard := by
  unfold leaveRetryLoop
  repeat' split
  case h_1.isFalse.isTrue => exact .inl rfl
  all_goals exact .inr ⟨_, rfl⟩

namespace Ledger

theorem release (h : Ledger cfg s) {discard : Bool} (hd : discard = true ∨ AllEnded s) :
    Ledger cfg (s.release discard) := by
  cases hl : s.lease with
  | none => simpa [release_of_none hl discard] using h
  | some lease =>
    have hr : (s.release discard).released = s.released ++ [⟨lease, discard, s.running lease⟩] := by
      simp [Request.release, hl]
    have hr' : (s.release discard).releasedLeases = s.releasedLeases ++ [lease] := by
      simp [releasedLeases, hr]
    refine ⟨h.positive, ?nodup, by simp [Request.release], ?covered, ?reusable⟩
    case nodup =>
      rw [hr']
      exact h.nodup.append (List.nodup_singleton lease) (by simpa using h.unreleased lease hl)
    case covered =>
      intro lease'
      have hc := h.covered lease'
      simp only [hl, Option.some.injEq] at hc
      have hl' : (s.release discard).lease = none := rfl
      simp only [hr', hl', reduceCtorEq, false_or, List.mem_append, List.mem_singleton]
      rw [or_comm, eq_comm]
      exact hc
    case reusable =>
      intro r hr'' hf
      rw [hr, List.mem_append, List.mem_singleton] at hr''
      rcases hr'' with hr'' | rfl
      · exact h.reusable r hr'' hf
      · have ha := hd.resolve_left (by simpa using hf)
        exact ha.running_eq_false lease

theorem acquire (h : Ledger cfg s) : Ledger cfg s.acquire := by
  cases hl : s.lease with
  | some lease => rwa [acquire_of_some hl]
  | none =>
    rw [acquire_of_none hl]
    have hp := h.positive
    refine ⟨Nat.succ_pos _, h.nodup, ?unreleased, ?covered, h.reusable⟩
    case unreleased =>
      -- the new lease is numbered above everything that was ever leased
      intro lease hl' hr
      have hc := (h.covered lease).mpr (.inr hr)
      simp only [Option.some.injEq] at hl'
      simp only [Leased] at hc
      split at hc <;> omega
    case covered =>
      intro lease
      have hc := h.covered lease
      simp only [hl, Leased, releasedLeases, Option.some.injEq, reduceCtorEq, false_or] at hc ⊢
      by_cases h0 : lease = 0
      · simp only [h0, if_true] at hc ⊢
        rw [hc]
        constructor
        · exact .inr
        · exact fun h' => h'.resolve_left (by omega)
      · simp only [h0, if_false] at hc ⊢
        rw [← hc]
        omega

theorem leaveRetryLoop (h : Ledger cfg s) (ha : AllEnded s) (f : Failure) (now : Nat) :
    Ledger cfg (leaveRetryLoop cfg s f now) := by
  unfold Request.leaveRetryLoop
  repeat' split
  case h_1.isTrue => exact h.release (.inl rfl)
  case h_1.isFalse.isTrue => exact h
  all_goals exact h.release (.inr ha)

theorem raiseOut (h : Ledger cfg s) (hs : s.lease = none ∨ AllEnded s) (o : Outcome) : Ledger cfg (s.raiseOut o) := by
  rcases hs with hs | hs
  · have : Ledger cfg (s.release (s.call.isSome && !s.nativeTerminal)) := by
      rwa [release_of_none hs _]
    exact { this with }
  · exact { h.release (.inr hs) with }

end Ledger

structure Rests (cfg : Config) (s t : Request) : Prop where
  ledger : Ledger cfg t
  calls : t.calls = s.calls
  started : t.started = s.started
  cleanedUp : t.cleanedUp = s.cleanedUp
  phase : t.phase = .attempting ∨ t.phase = .authorizing ∨ ∃ o, t.phase = .ended o ∧ t.lease = none

namespace Rests

theorem raiseOut (h : Ledger cfg s) (hs : s.lease = none ∨ AllEnded s) (o : Outcome) : Rests cfg s (s.raiseOut o) where
  ledger := h.raiseOut hs o
  calls := rfl
  started := rfl
  cleanedUp := rfl
  phase := .inr <| .inr ⟨_, rfl, rfl⟩

theorem of_flagStep {u : Request} (e : FlagStep s t) (h : Rests cfg t u) : Rests cfg s u where
  __ := h
  calls := h.calls.trans e.calls
  started := h.started.trans e.started
  cleanedUp := h.cleanedUp.trans e.cleanedUp

theorem of_release {discard : Bool} (h : Rests cfg (s.release discard) t) : Rests cfg s t :=
  { h with }

theorem release_raiseOut (h : Ledger cfg s) {discard : Bool} (hd : discard = true ∨ AllEnded s) (o : Outcome) :
    Rests cfg s ((s.release discard).raiseOut o) :=
  .of_release <| .raiseOut (h.release hd) (.inl rfl) o

theorem of_phase (h : Ledger cfg s) {phase : Phase} (hp : phase = .attempting ∨ phase = .authorizing) :
    Rests cfg s { s with phase := phase } where
  ledger := { h with }
  calls := rfl
  started := rfl
  cleanedUp := rfl
  phase := hp.elim .inl (.inr ∘ .inl)

theorem authorizationRetry (h : Ledger cfg s) (ha : AllEnded s) (source : Source) (f : Failure) (now : Nat)
    (canRetry : Option Bool) : Rests cfg s (authorizationRetry cfg s source f now canRetry) := by
  have giveUp (o : Outcome) : Rests cfg s (((s.resolveAuthorizationRetry false).2.release false).raiseOut o) :=
    have e := flagStep_resolve s false
    .of_flagStep e <| .release_raiseOut (e.ledger h) (.inr <| e.allEnded ha) o
  have e := flagStep_resolve s true
  unfold Request.authorizationRetry
  cases f with
  | other _ => exact .raiseOut h (.inr ha) _
  | request status =>
    dsimp only
    split
    case isTrue => exact giveUp _
    split
    case isTrue => exact giveUp _
    split
    case h_1 => exact giveUp _
    case h_2 => exact giveUp _
    split
    case isTrue => exact .of_flagStep e <| .release_raiseOut (e.ledger h) (.inl rfl) _
    split
    case isTrue => exact .of_flagStep e <| .of_phase (e.ledger h) (.inr rfl)
    exact .of_flagStep e <| .of_release <|
      .of_phase ((e.ledger h).release (.inr <| e.allEnded ha)) (.inr rfl)

theorem raise (h : Ledger cfg s) (ha : AllEnded s) (source : Source) (f : Failure) (ts : Times)
    (canRetry : Option Bool) : Rests cfg s (raise cfg s source f ts canRetry) := by
  -- with or without a release, the exception goes on from a state in which every call has ended
  have next {t : Request} (h : Ledger cfg t) (ha : AllEnded t) : Rests cfg t
      (if cfg.provider then Request.authorizationRetry cfg t source f ts.authorize canRetry
        else t.raiseOut (.failed source f)) := by
    split
    · exact authorizationRetry h ha ..
    · exact .raiseOut h (.inr ha) _
  have hl := h.leaveRetryLoop ha f ts.expire
  unfold Request.raise
  dsimp only
  rcases leaveRetryLoop_cases cfg s f ts.expire with h' | ⟨discard, h'⟩ <;> rw [h'] at hl ⊢
  · exact next h ha
  · exact .of_release <| next hl (ha.release discard)

theorem fail (h : Ledger cfg s) (ha : AllEnded s) (source : Source) (r : Raised) (ts : Times)
    (canRetry : Option Bool) : Rests cfg s (fail cfg s source r ts canRetry) := by
  unfold Request.fail
  have e := (flagStep_classifyRaised cfg s r ts.classify).trans (flagStep_decide cfg _ r.failure ts.decide)
  generalize decide cfg (classifyRaised cfg s r ts.classify) r.failure ts.decide = d at e
  obtain ⟨v, s'⟩ := d
  have h' := e.ledger h
  have ha' := e.allEnded ha
  cases v with
  | retry => exact .of_flagStep e <| .of_phase h' (.inl rfl)
  | cancelled => exact .of_flagStep e <| .release_raiseOut h' (.inl rfl) _
  | raise => exact .of_flagStep e <| raise h' ha' ..

end Rests

structure Balanced (cfg : Config) (s : Request) : Prop where
  ledger : Ledger cfg s
  former : ∀ c ∈ s.formerCalls, c.outcome.isSome = true
  atRest : s.phase ≠ .calling → s.phase ≠ .shielded → (∀ o, s.phase ≠ .ended o) → AllEnded s
  ended : ∀ o, s.phase = .ended o → s.started = true → s.lease = none
  cleanedUp : s.cleanedUp = true → s.lease = none
  unstarted : s.phase = .unsubmitted ∨ s.phase = .queued ∨ s.phase = .created → s.started = false
  started : s.started = false →
    s.call = none ∧ (s.phase = .unsubmitted ∨ s.phase = .queued ∨ s.phase = .created ∨ ∃ o, s.phase = .ended o)
  -- the work of a submission that was cleaned up before its start is never entered
  abandoned : s.cleanedUp = true → s.started = true → ∃ o, s.phase = .ended o

attribute [local simp] initial

theorem initial_balanced : Balanced cfg (initial cfg) where
  ledger :=
    { positive := by simp
      nodup := by simp [releasedLeases]
      unreleased := by simp [releasedLeases]
      covered := by
        intro lease
        simp only [Leased, initial, releasedLeases]
        split
        case isTrue h => cases cfg.override <;> simp [h]
        case isFalse h => cases cfg.override <;> simp <;> omega
      reusable := by simp }
  former := by simp
  atRest := by simp [AllEnded, calls]
  ended := by simp
  cleanedUp := by simp
  unstarted := by simp
  started := by simp
  abandoned := by simp

namespace Balanced

theorem of_flagStep (h : Balanced cfg s) (e : FlagStep s t) : Balanced cfg t where
  ledger := e.ledger h.ledger
  former := by simpa [e.formerCalls] using h.former
  atRest := by simpa [AllEnded, e.calls, e.phase] using h.atRest
  ended := by simpa [e.phase, e.started, e.lease] using h.ended
  cleanedUp := by simpa [e.cleanedUp, e.lease] using h.cleanedUp
  unstarted := by simpa [e.phase, e.started] using h.unstarted
  started := by simpa [e.started, e.call, e.phase] using h.started
  abandoned := by simpa [e.cleanedUp, e.started, e.phase] using h.abandoned

theorem of_rests (hs : s.started = true) (hc : s.cleanedUp = false) (ha : AllEnded s) (e : Rests cfg s t) :
    Balanced cfg t := by
  have hc : t.cleanedUp = false := e.cleanedUp.trans hc
  have ha' : AllEnded t := by simpa [AllEnded, e.calls] using ha
  have ht : t.started = true := e.started.trans hs
  exact { e with
    former := fun c hc => ha' c (List.mem_append_left _ hc)
    atRest := fun _ _ _ => ha'
    ended := by
      intro o ho _
      rcases e.phase with hp | hp | ⟨o', -, hl⟩
      · simp [hp] at ho
      · simp [hp] at ho
      · exact hl
    cleanedUp := by simp [hc]
    unstarted := by rcases e.phase with hp | hp | ⟨o, hp, -⟩ <;> simp [hp]
    started := by simp [ht]
    abandoned := by simp [hc] }

section Step

variable (h : Balanced cfg s)

include h

theorem active (hp : s.phase ≠ .unsubmitted ∧ s.phase ≠ .queued ∧ s.phase ≠ .created ∧ ∀ o, s.phase ≠ .ended o) :
    s.started = true ∧ s.cleanedUp = false := by
  have hs : s.started = true := by
    by_contra hs
    rcases (h.started (by simpa using hs)).2 with hp' | hp' | hp' | ⟨o, hp'⟩ <;> simp [hp'] at hp
  refine ⟨hs, ?_⟩
  by_contra hc
  obtain ⟨o, ho⟩ := h.abandoned (by simpa using hc) hs
  exact hp.2.2.2 o ho

theorem clock (now : Nat) : Balanced cfg { s with clock := now } := { h with ledger := { h.ledger with } }

theorem submit (hp : s.phase = .unsubmitted) (now : Nat) (accepted : Bool) :
    Balanced cfg (submit cfg s now accepted) := by
  have hs := h.unstarted (.inl hp)
  unfold Request.submit
  split
  case isTrue =>
    exact { h with
      ledger := { h.ledger with }
      atRest := fun _ _ _ => h.atRest (by simp [hp]) (by simp [hp]) (by simp [hp])
      ended := by simp
      unstarted := fun _ => hs
      started := fun _ => ⟨(h.started hs).1, .inr <| .inl rfl⟩
      abandoned := by simp [hs] }
  exact {
    ledger := { h.ledger.release (.inl rfl) with }
    former := by simpa using h.former
    atRest := fun _ _ _ => (h.atRest (by simp [hp]) (by simp [hp]) (by simp [hp])).release true
    ended := by simp
    cleanedUp := by simp
    unstarted := by simp [hs]
    started := by simpa [hp] using fun _ => (h.started hs).1
    abandoned := by simp [hs] }

theorem dispatch (hp : s.phase = .queued) (created : Bool) : Balanced cfg (s.dispatch created) := by
  have hs := h.unstarted (.inr <| .inl hp)
  have ha := h.atRest (by simp [hp]) (by simp [hp]) (by simp [hp])
  unfold Request.dispatch
  split
  case isTrue =>
    exact { h with
      ledger := { h.ledger with }
      atRest := fun _ _ _ => ha
      ended := by simp [hs]
      unstarted := by simp
      started := fun _ => ⟨(h.started hs).1, by simp⟩
      abandoned := by simp [hs] }
  split
  all_goals exact { h with
    ledger := { h.ledger with }
    atRest := fun _ _ _ => ha
    ended := by simp [hs]
    unstarted := fun _ => hs
    started := fun _ => ⟨(h.started hs).1, by simp⟩
    abandoned := by simp [hs] }

theorem releaseIfUnstarted : Balanced cfg s.releaseIfUnstarted := by
  unfold Request.releaseIfUnstarted
  split
  case isTrue => exact h
  case isFalse hs =>
    simp only [Bool.or_eq_true, not_or, Bool.not_eq_true] at hs
    exact {
      ledger := { h.ledger.release (.inl rfl) with }
      former := by simpa using h.former
      atRest := by simpa [AllEnded, calls] using h.atRest
      ended := by simp
      cleanedUp := by simp
      unstarted := by simp [hs]
      started := by simpa using h.started
      abandoned := by simp [hs] }

theorem start (hp : s.phase = .created) (now : Nat) (providerRaises : Bool) :
    Balanced cfg (start cfg s now providerRaises) := by
  have hs := h.unstarted (.inr <| .inr hp)
  have ha := h.atRest (by simp [hp]) (by simp [hp]) (by simp [hp])
  have hn := (h.started hs).1
  unfold Request.start
  dsimp only
  split
  case isTrue =>
    exact {
      ledger := { Ledger.release (s := { s with started := true, clock := now, cancelled := true })
        { h.ledger with } (.inl rfl) with }
      former := by simpa using h.former
      atRest := by simp
      ended := by simp
      cleanedUp := by simp
      unstarted := by simp
      started := by simp
      abandoned := by simp }
  split
  case isTrue hc =>
    exact { h with
      ledger := { h.ledger with }
      atRest := by simp
      ended := fun _ _ _ => h.cleanedUp hc
      unstarted := by simp
      started := by simp
      abandoned := by simp }
  case isFalse hc =>
    simp only [Bool.not_eq_true] at hc
    have h' : Ledger cfg { s with started := true, clock := now } := { h.ledger with }
    split
    case isTrue =>
      exact of_rests (s := { s with started := true, clock := now }) rfl hc ha <|
        { ledger := { h' with }, calls := rfl, started := rfl, cleanedUp := rfl,
          phase := .inl rfl }
    split
    case isTrue =>
      exact of_rests (s := { s with started := true, clock := now }) rfl hc ha <| .raiseOut h' (.inr ha) _
    exact of_rests (s := { s with started := true, clock := now }) rfl hc ha <|
      { ledger := { h' with }, calls := rfl, started := rfl, cleanedUp := rfl,
        phase := .inr <| .inl rfl }

theorem authorize (hp : s.phase = .authorizing) (now : Nat) : Balanced cfg (s.authorize now) := by
  obtain ⟨hs, hc⟩ := h.active (by simp [hp])
  have ha := h.atRest (by simp [hp]) (by simp [hp]) (by simp [hp])
  unfold Request.authorize
  dsimp only
  split
  case isTrue =>
    exact of_rests (s := { s with clock := now }) hs hc ha <|
      .release_raiseOut (h.clock now).ledger (.inr ha) _
  exact { h with
    ledger := { h.ledger with }
    atRest := fun _ _ _ => ha
    ended := by simp
    unstarted := by simp
    started := by simp [hs]
    abandoned := by simp [hc] }

theorem authenticated (hp : s.phase = .authenticating) (a : Authenticated) (now : Nat) :
    Balanced cfg (authenticated cfg s a now) := by
  obtain ⟨hs, hc⟩ := h.active (by simp [hp])
  have ha := h.atRest (by simp [hp]) (by simp [hp]) (by simp [hp])
  have h' := (h.clock now).ledger
  refine of_rests (s := { s with clock := now }) hs hc ha ?_
  unfold Request.authenticated
  cases a with
  | ok =>
    exact { ledger := { h' with }, calls := rfl, started := rfl, cleanedUp := rfl,
            phase := .inl rfl }
  | raises canRetry =>
    dsimp only
    split
    case isTrue =>
      have e := flagStep_resolve { s with clock := now } false
      exact .of_flagStep e <| .release_raiseOut (e.ledger h') (.inr <| e.allEnded ha) _
    split
    · exact .of_phase h' (.inr rfl)
    · exact .release_raiseOut h' (.inr ha) _

theorem nativeDone (o : Native) : Balanced cfg (s.markNativeAttemptTerminal o) := by
  have hm (c : Call) (hc : c ∈ (s.markNativeAttemptTerminal o).calls) :
      c.outcome.isSome = true ∨ c ∈ s.calls := by
    rcases List.mem_append.mp hc with hc | hc
    · exact .inr <| List.mem_append_left _ hc
    · obtain ⟨c', -, rfl⟩ := Option.map_eq_some_iff.mp (Option.mem_toList.mp hc)
      exact .inl rfl
  exact { h with
    ledger := { h.ledger with }
    atRest := fun h₁ h₂ h₃ c hc => (hm c hc).elim id (h.atRest h₁ h₂ h₃ c)
    started := fun hs => ⟨by simp [markNativeAttemptTerminal, (h.started hs).1], (h.started hs).2⟩ }

end Step

section Attempt

variable {how : Send} {ts : Times} {canRetry : Option Bool}

attribute [local simp] Request.openCall

theorem openCall (h : Ledger cfg s) (hs : s.started = true) (hc : s.cleanedUp = false) (ha : AllEnded s)
    (lease : Nat) : Balanced cfg (s.openCall lease) where
  ledger := { h with }
  former := ha
  atRest := by simp
  ended := by simp
  cleanedUp := by simp [hc]
  unstarted := by simp
  started := by simp [hs]
  abandoned := by simp [hc]

theorem fail (h : Ledger cfg s) (hs : s.started = true) (hc : s.cleanedUp = false) (ha : AllEnded s)
    (source : Source) (r : Raised) : Balanced cfg (fail cfg s source r ts canRetry) :=
  of_rests hs hc ha <| .fail h ha ..

theorem send (h : Ledger cfg s) (hs : s.started = true) (hc : s.cleanedUp = false) (ha : AllEnded s) :
    Balanced cfg (send cfg s how ts canRetry) := by
  cases how with
  | opens => exact openCall h.acquire hs hc ha.acquire _
  | raises r leased =>
    cases leased with
    | false => exact fail h hs hc ha ..
    | true => exact fail h.acquire hs hc ha.acquire ..
  | foreignLoop => exact fail (h.acquire.release (.inl rfl)) hs hc (ha.acquire.release true) ..

theorem attemptCall (h : Ledger cfg s) (hs : s.started = true) (hc : s.cleanedUp = false) (ha : AllEnded s) :
    Balanced cfg (attemptCall cfg s how ts canRetry) := by
  unfold Request.attemptCall
  split
  case isTrue => exact of_rests hs hc ha <| .raiseOut h (.inr ha) _
  split
  case isTrue =>
    have h' : Ledger cfg { s with attempt := s.attempt + 1 } := { h with }
    exact of_rests (s := { s with attempt := s.attempt + 1 }) hs hc ha <| .raiseOut h' (.inr ha) _
  have h' : Ledger cfg { s with attempt := s.attempt + 1, status := none, nativeCode := none } := { h with }
  exact send h' hs hc ha

theorem allEnded_of_outcome {o : Native} (h : Balanced cfg s) (ho : s.outcome = some o) : AllEnded s := by
  intro c hc
  rcases List.mem_append.mp hc with hc | hc
  · exact h.former c hc
  · rw [Option.mem_toList] at hc
    simp only [Request.outcome, Option.mem_def.mp hc, Option.bind_some] at ho
    simp [ho]

attribute [local simp] Request.cancelAttempt

theorem cancelAttempt (h : Ledger cfg s) (hs : s.started = true)
    (hf : ∀ c ∈ s.formerCalls, c.outcome.isSome = true) : Balanced cfg s.cancelAttempt where
  ledger := (h.release (.inl rfl)).raiseOut (.inl <| by simp) _
  former := by simpa [raiseOut] using hf
  atRest := by simp [raiseOut]
  ended := by simp [raiseOut]
  cleanedUp := by simp [raiseOut]
  unstarted := by simp [raiseOut]
  started := by simp [raiseOut, hs]
  abandoned := by simp [raiseOut]

theorem of_phase (h : Balanced cfg s) (hs : s.started = true) (hc : s.cleanedUp = false) {p : Phase}
    (hp : p = .shielded ∨ AllEnded s) (hp' : p ≠ .unsubmitted ∧ p ≠ .queued ∧ p ≠ .created)
    (he : ∀ o, p ≠ .ended o) : Balanced cfg { s with phase := p } :=
  { h with
    ledger := { h.ledger with }
    atRest := fun _ h₂ _ => hp.resolve_left h₂
    ended := fun o ho => absurd ho (he o)
    unstarted := by
      rintro (ho | ho | ho)
      · exact absurd ho hp'.1
      · exact absurd ho hp'.2.1
      · exact absurd ho hp'.2.2
    started := by simp [hs]
    abandoned := by simp [hc] }

theorem resume {o : Native} (h : Balanced cfg s) (hp : s.phase = .calling ∨ s.phase = .shielded)
    (ho : s.outcome = some o) : Balanced cfg (resume cfg s o ts canRetry) := by
  obtain ⟨hs, hc⟩ := h.active (by rcases hp with hp | hp <;> simp [hp])
  have ha := h.allEnded_of_outcome ho
  unfold Request.resume
  cases o with
  | success =>
    have h' := h.of_phase hs hc (p := .completing) (.inr ha) (by simp) (by simp)
    exact h'.of_flagStep <| by constructor <;> rfl
  | error e => exact fail h.ledger hs hc ha ..
  | cancelled =>
    dsimp only
    split
    · exact h.of_phase hs hc (.inl rfl) (by simp) (by simp)
    · exact cancelAttempt h.ledger hs h.former

theorem complete (h : Balanced cfg s) (hp : s.phase = .completing ∨ s.phase = .recompleting) (p : Processed) :
    Balanced cfg (complete cfg s p ts canRetry) := by
  obtain ⟨hs, hc⟩ := h.active (by rcases hp with hp | hp <;> simp [hp])
  have ha := h.atRest (by rcases hp with hp | hp <;> simp [hp]) (by rcases hp with hp | hp <;> simp [hp])
    (by rcases hp with hp | hp <;> simp [hp])
  unfold Request.complete
  cases p with
  | response =>
    have h' : Ledger cfg { s with status := some .ok } := { h.ledger with }
    exact {
      ledger := { h'.release (.inr ha) with }
      former := by simpa using h.former
      atRest := by simp
      ended := by simp
      cleanedUp := by simp
      unstarted := by simp
      started := by simp [hs]
      abandoned := by simp }
  | raises converted r =>
    have h' : Ledger cfg { s with status := if converted then some .ok else s.status } := { h.ledger with }
    exact fail h' hs hc ha ..

theorem deliver (h : Balanced cfg s) (e : s.deliver = some t) : Balanced cfg t := by
  have h' : Balanced cfg { s with taskCancel := .delivered } := { h with ledger := { h.ledger with } }
  unfold Request.deliver at e
  dsimp only at e
  split at e <;> cases e
  case h_1 hp =>
    have hs := h.unstarted (.inr <| .inr hp)
    exact { h' with
      ledger := { h.ledger with }
      atRest := by simp
      ended := by simp [hs]
      unstarted := by simp
      started := fun _ => ⟨(h.started hs).1, by simp⟩
      abandoned := by simp [hs] }
  case h_2 hp =>
    obtain ⟨hs, hc⟩ := h'.active (by simp [hp])
    have ha := h'.atRest (by simp [hp]) (by simp [hp]) (by simp [hp])
    exact of_rests hs hc ha <| .raiseOut h'.ledger (.inr ha) _
  case h_3 hp =>
    obtain ⟨hs, hc⟩ := h'.active (by simp [hp])
    split
    · exact h'.of_phase hs hc (.inl rfl) (by simp) (by simp)
    · exact cancelAttempt h'.ledger hs h'.former
  case h_4 hp =>
    obtain ⟨hs, hc⟩ := h'.active (by simp [hp])
    have ha := h'.atRest (by simp [hp]) (by simp [hp]) (by simp [hp])
    exact h'.of_phase hs hc (.inr ha) (by simp) (by simp)

end Attempt

theorem step {a : Event} (h : Balanced cfg s) (e : step cfg s a = some t) : Balanced cfg t := by
  cases a <;> simp only [Request.step, Option.ite_none_right_eq_some, Option.some.injEq] at e
  case submit now accepted => exact e.2 ▸ h.submit e.1.1 now accepted
  case dispatch created => exact e.2 ▸ h.dispatch e.1 created
  case abandon => exact e.2 ▸ h.of_flagStep (flagStep_cancelFuture s)
  case releaseIfUnstarted => exact e.2 ▸ h.releaseIfUnstarted
  case start now providerRaises => exact e.2 ▸ h.start e.1.1 now providerRaises
  case authorize now => exact e.2 ▸ h.authorize e.1.1 now
  case authenticated a now => exact e.2 ▸ h.authenticated e.1.1 a now
  case attempt how ts canRetry =>
    obtain ⟨⟨hp, -⟩, rfl⟩ := e
    have h' := h.clock ts.authorize
    obtain ⟨hs, hc⟩ := h'.active (by simp [hp])
    exact attemptCall h'.ledger hs hc (h'.atRest (by simp [hp]) (by simp [hp]) (by simp [hp]))
  case nativeDone o => exact e.2 ▸ h.nativeDone o
  case resume ts canRetry =>
    obtain ⟨o, ho, hp, -, rfl⟩ := step_resume e
    exact (h.clock ts.authorize).resume hp ho
  case processed p ts canRetry =>
    obtain ⟨⟨hp, -⟩, rfl⟩ := e
    exact (h.clock ts.authorize).complete hp p
  case cancelTask => exact e ▸ h.of_flagStep (flagStep_requestTaskCancel s)
  case deliver => exact h.deliver e.2
  case publish =>
    split at e <;> cases e
    unfold copyOutcome
    split
    · exact h.of_flagStep <| by constructor <;> rfl
    · exact h
  case cancel => exact e ▸ h.of_flagStep (flagStep_cancel s)
  case expire synchronous => exact e.2 ▸ h.of_flagStep (flagStep_expire s synchronous)

end Balanced

theorem reaches_balanced (r : Machine.Reaches (step cfg) Machine.anyEvent (initial cfg) s) : Balanced cfg s :=
  r.invariant (fun h _ e => h.step e) initial_balanced

-- The head of the retry loop is the only place that opens a native call, and it does so on a lease that the
-- request holds.
section Opened

-- The coroutine leaves the calls and the shared future as they are.
structure Kept (s t : Request) : Prop where
  calls : t.calls = s.calls
  future : t.future = s.future

namespace Kept

variable {ts : Times} {canRetry : Option Bool}

theorem trans {u : Request} (k : Kept s t) (k' : Kept t u) : Kept s u :=
  ⟨k'.calls.trans k.calls, k'.future.trans k.future⟩

theorem authorizationRetry (source : Source) (f : Failure) (now : Nat) :
    Kept s (authorizationRetry cfg s source f now canRetry) := by
  unfold Request.authorizationRetry
  cases f <;> dsimp only
  repeat' split
  all_goals exact ⟨rfl, rfl⟩

theorem raise (source : Source) (f : Failure) : Kept s (raise cfg s source f ts canRetry) := by
  unfold Request.raise
  rcases leaveRetryLoop_cases cfg s f ts.expire with h | ⟨discard, h⟩ <;> dsimp only <;> rw [h] <;> split
  · exact authorizationRetry ..
  · exact ⟨rfl, rfl⟩
  · exact { authorizationRetry (s := s.release discard) .. with }
  · exact ⟨rfl, rfl⟩

theorem fail (source : Source) (r : Raised) : Kept s (fail cfg s source r ts canRetry) := by
  have k : Kept s (decide cfg (classifyRaised cfg s r ts.classify) r.failure ts.decide).2 := by
    cases r <;> exact ⟨rfl, rfl⟩
  unfold Request.fail
  generalize decide cfg (classifyRaised cfg s r ts.classify) r.failure ts.decide = d at k
  obtain ⟨v, t⟩ := d
  cases v with
  | retry => exact { k with }
  | cancelled => exact { k with }
  | raise => exact k.trans (raise ..)

theorem start (now : Nat) (providerRaises : Bool) : Kept s (start cfg s now providerRaises) := by
  unfold Request.start
  dsimp only
  repeat' split
  all_goals exact ⟨rfl, rfl⟩

theorem authorize (now : Nat) : Kept s (s.authorize now) := by
  unfold Request.authorize
  dsimp only
  split <;> exact ⟨rfl, rfl⟩

theorem authenticated (a : Authenticated) (now : Nat) : Kept s (authenticated cfg s a now) := by
  unfold Request.authenticated
  cases a <;> dsimp only
  repeat' split
  all_goals exact ⟨rfl, rfl⟩

theorem resume (o : Native) : Kept s (resume cfg s o ts canRetry) := by
  unfold Request.resume
  cases o <;> dsimp only
  case error => exact fail ..
  case cancelled => split <;> exact ⟨rfl, rfl⟩
  case success => exact ⟨rfl, rfl⟩

theorem complete (p : Processed) : Kept s (complete cfg s p ts canRetry) := by
  cases p with
  | response => exact ⟨rfl, rfl⟩
  | raises converted r => exact { fail (s := { s with status := _ }) .. with }

theorem deliver (e : s.deliver = some t) : Kept s t := by
  unfold Request.deliver at e
  dsimp only at e
  split at e <;> cases e
  case h_3 => split <;> exact ⟨rfl, rfl⟩
  all_goals exact ⟨rfl, rfl⟩

end Kept

def Opens (s t : Request) : Prop :=
  t.calls = s.calls ∨ ∃ c, t.calls = s.calls ++ [c] ∧ t.call = some c ∧ t.lease = some c.lease ∧
    c.outcome = none ∧ t.phase = .calling ∧ t.releasedLeases = s.releasedLeases

variable {canRetry : Option Bool}

theorem send_opens {how : Send} {ts : Times} : Opens s (send cfg s how ts canRetry) := by
  cases how with
  | opens => exact .inr ⟨_, rfl, rfl, rfl, rfl, rfl, rfl⟩
  | raises r leased => cases leased <;> exact .inl (Kept.fail ..).calls
  | foreignLoop => exact .inl (Kept.fail ..).calls

theorem attemptCall_opens (how : Send) (ts : Times) (canRetry : Option Bool) :
    Opens s (attemptCall cfg s how ts canRetry) ∧
      (s.cancelled = true → (attemptCall cfg s how ts canRetry).calls = s.calls) := by
  unfold attemptCall
  split
  case isTrue => exact ⟨.inl rfl, fun _ => rfl⟩
  case isFalse hc =>
    refine ⟨?_, fun hc' => absurd hc' hc⟩
    split
    · exact .inl rfl
    · exact send_opens (s := { s with attempt := s.attempt + 1, status := none, nativeCode := none })

theorem step_calls {a : Event} (e : step cfg s a = some t) :
    t.calls.length = s.calls.length ∨ (s.phase = .attempting ∧ s.cancelled = false ∧ Opens s t) := by
  cases a <;> simp only [step, Option.ite_none_right_eq_some, Option.some.injEq] at e
  case attempt how ts canRetry =>
    obtain ⟨⟨hp, -⟩, rfl⟩ := e
    obtain ⟨ho, hc⟩ := attemptCall_opens (s := { s with clock := ts.authorize }) how ts canRetry
    by_cases hc' : s.cancelled = true
    · exact .inl <| congrArg List.length (hc hc')
    · exact .inr ⟨hp, by simpa using hc', ho⟩
  case nativeDone o =>
    obtain ⟨-, rfl⟩ := e
    left
    cases hc : s.call <;> simp [markNativeAttemptTerminal, calls, hc]
  all_goals refine .inl <| congrArg List.length ?_
  case submit now accepted =>
    rw [← e.2]
    unfold submit
    split <;> rfl
  case dispatch created =>
    rw [← e.2]
    unfold dispatch
    repeat' split
    all_goals rfl
  case abandon => exact e.2 ▸ (flagStep_cancelFuture s).calls
  case releaseIfUnstarted =>
    rw [← e.2]
    unfold releaseIfUnstarted
    split <;> rfl
  case start now providerRaises => exact e.2 ▸ (Kept.start now providerRaises).calls
  case authorize now => exact e.2 ▸ (Kept.authorize now).calls
  case authenticated a now => exact e.2 ▸ (Kept.authenticated a now).calls
  case resume ts canRetry =>
    obtain ⟨o, -, -, -, rfl⟩ := step_resume e
    exact (Kept.resume o).calls
  case processed p ts canRetry => exact e.2 ▸ (Kept.complete p).calls
  case cancelTask => exact e ▸ (flagStep_requestTaskCancel s).calls
  case deliver => exact (Kept.deliver e.2).calls
  case publish =>
    split at e <;> cases e
    unfold copyOutcome
    split <;> rfl
  case cancel => exact e ▸ (flagStep_cancel s).calls
  case expire synchronous => exact e.2 ▸ (flagStep_expire s synchronous).calls

end Opened

def WorkEnded (s : Request) : Prop :=
  (∃ o, s.phase = .ended o) ∧ (s.started = true ∨ s.cleanedUp = true)

theorem lease_releaseIfUnstarted (h : Balanced cfg s) (hs : s.started = false) :
    s.releaseIfUnstarted.lease = none ∧ s.releaseIfUnstarted.cleanedUp = true := by
  unfold releaseIfUnstarted
  cases hc : s.cleanedUp with
  | true => simpa [hc] using h.cleanedUp hc
  | false => simp [hs]

theorem futureDone_copyOutcome (h : s.future ≠ none) (o : Outcome) : (s.copyOutcome o).futureDone = true := by
  unfold copyOutcome futureDone
  match hf : s.future with
  | none => exact absurd hf h
  | some .pending => cases o <;> simp
  | some .cancelled => simp [hf]
  | some .finished => simp [hf]

-- Every lease of a request is released at most once, and exactly once when its work has ended or its
-- submission was rejected. The end of the coroutine completes the future, and when the future is done, the
-- clean-up of a request that never ran releases each of its leases exactly once. A native call is only opened on a
-- lease that was not released, and a lease is only released for reuse while no native call runs on it.
theorem leases_balanced {cfg : Config} {s : Request}
    (r : Machine.Reaches (step cfg) Machine.anyEvent (initial cfg) s) :
    (∀ lease, s.releasedLeases.count lease ≤ 1) ∧
    (s.WorkEnded → ∀ lease, Leased cfg s lease → s.releasedLeases.count lease = 1) ∧
    (∀ now t, step cfg s (.submit now false) = some t →
      ∀ lease, Leased cfg t lease → t.releasedLeases.count lease = 1) ∧
    (∀ o, s.phase = .ended o → s.future ≠ none → ∃ t, step cfg s .publish = some t ∧ t.futureDone = true) ∧
    (s.futureDone = true → s.started = false → ∃ t, step cfg s .releaseIfUnstarted = some t ∧
      t.cleanedUp = true ∧ ∀ lease, Leased cfg t lease → t.releasedLeases.count lease = 1) ∧
    (∀ a t, step cfg s a = some t → t.calls.length ≠ s.calls.length →
      ∃ c, t.calls = s.calls ++ [c] ∧ t.lease = some c.lease ∧ c.lease ∉ t.releasedLeases) ∧
    ∀ r ∈ s.released, r.discard = false → r.running = false := by
  have h := reaches_balanced r
  have once {t : Request} (h : Ledger cfg t) (hl : t.lease = none) (lease : Nat) (hL : Leased cfg t lease) :
      t.releasedLeases.count lease = 1 :=
    List.count_eq_one_of_mem h.nodup <| ((h.covered lease).mp hL).resolve_left (by simp [hl])
  refine ⟨?atMostOnce, ?ended, ?rejected, ?published, ?cleanedUp, ?opened, h.ledger.reusable⟩
  case atMostOnce => exact List.nodup_iff_count_le_one.mp h.ledger.nodup
  case ended =>
    rintro ⟨⟨o, ho⟩, hs⟩
    exact once h.ledger <| hs.elim (h.ended o ho) h.cleanedUp
  case rejected =>
    intro now t e
    refine once (h.step e).ledger ?_
    simp only [step, Machine.guard_iff] at e
    rw [← e.2]
    simp [submit]
  case published =>
    intro o ho hf
    exact ⟨s.copyOutcome o, by simp [step, ho], futureDone_copyOutcome hf o⟩
  case cleanedUp =>
    intro hf hs
    have e : step cfg s .releaseIfUnstarted = some s.releaseIfUnstarted := by simp [step, hf]
    obtain ⟨hl, hc⟩ := lease_releaseIfUnstarted h hs
    exact ⟨_, e, hc, once (h.step e).ledger hl⟩
  case opened =>
    intro a t e hn
    obtain ⟨-, -, ho⟩ := (step_calls e).resolve_left hn
    obtain ⟨c, hc, -, hl, -⟩ := ho.resolve_left fun hc => hn (congrArg List.length hc)
    exact ⟨c, hc, hl, (h.step e).ledger.unreleased c.lease hl⟩

def plainConfig : Config where
  override := false
  retries := some 3
  timeout := some 10
  authTimeout := none
  authorizationApplies := some false
  provider := false

def noTime : Times := ⟨0, 0, 0, 0, 0⟩

def unavailable : RpcError := ⟨.unavailable, .missing, false, false, false, true⟩

def retriedOnce : List Event :=
  [.submit 0 true, .dispatch true, .start 0 false, .attempt .opens noTime none, .nativeDone (.error unavailable),
    .resume noTime none, .attempt .opens noTime none, .nativeDone .success, .resume noTime none,
    .processed .response noTime none, .publish]

def afterRetry : Request :=
  (Machine.run (step plainConfig) (initial plainConfig) retriedOnce).getD (initial plainConfig)

theorem leases_balanced_afterRetry : Leased plainConfig afterRetry 1 ∧ afterRetry.releasedLeases.count 1 = 1 := by
  have hr : Machine.run (step plainConfig) (initial plainConfig) retriedOnce = some afterRetry := rfl
  have hw : afterRetry.WorkEnded := ⟨⟨.response 1, rfl⟩, .inl rfl⟩
  have hl : Leased plainConfig afterRetry 1 := by simp [Leased, show afterRetry.nextLease = 2 from rfl]
  exact ⟨hl, (leases_balanced (.of_run hr)).2.1 hw 1 hl⟩

theorem calls_sequential {cfg : Config} {s : Request}
    (r : Machine.Reaches (step cfg) Machine.anyEvent (initial cfg) s) : s.calls.countP (·.outcome.isNone) ≤ 1 ∧
    ∀ a t, step cfg s a = some t → t.calls.length ≠ s.calls.length → AllEnded s := by
  have h := reaches_balanced r
  constructor
  · have hf : s.formerCalls.countP (·.outcome.isNone) = 0 :=
      List.countP_eq_zero.mpr fun c hc => by simpa using Option.isSome_iff_ne_none.mp (h.former c hc)
    have hc : s.call.toList.countP (·.outcome.isNone) ≤ s.call.toList.length := List.countP_le_length
    rw [calls, List.countP_append, hf, Nat.zero_add]
    exact Nat.le_trans hc (by cases s.call <;> simp)
  · intro a t e hn
    obtain ⟨-, -, ho⟩ := (step_calls e).resolve_left hn
    obtain ⟨c, hc, hcall, -⟩ := ho.resolve_left fun hc => hn (congrArg List.length hc)
    rw [calls, hcall] at hc
    have hformer : t.formerCalls = s.calls := List.append_cancel_right hc
    exact fun c hc => (h.step e).former c (hformer ▸ hc)

theorem calls_sequential_afterRetry : afterRetry.calls.length = 2 ∧ afterRetry.calls.countP (·.outcome.isNone) ≤ 1 :=
  have hr : Machine.run (step plainConfig) (initial plainConfig) retriedOnce = some afterRetry := rfl
  ⟨rfl, (calls_sequential (.of_run hr)).left⟩

end Request

end Aio
