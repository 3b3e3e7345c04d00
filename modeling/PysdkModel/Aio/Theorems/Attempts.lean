import PysdkModel.Aio.Attempts

namespace Aio

namespace Attempts

variable {τ : Type} [AddCommGroup τ] [LinearOrder τ] {cfg : Config τ} {s s' : Attempts τ}

structure Same (s s' : Attempts τ) : Prop where
  opened : s'.opened = s.opened
  cycle : s'.cycle = s.cycle
  attempt : s.attempt ≤ s'.attempt
  authDeadline : s'.authDeadline = s.authDeadline
  authentications : s'.authentications = s.authentications
  submitted : s'.submitted = s.submitted
  started : s'.started = s.started
  inputMetadata : s'.inputMetadata = s.inputMetadata
  token : s'.token = s.token

def Phase.InLoop (p : Phase) : Prop :=
  p = .calling ∨ ∃ f, p = .attempting f

inductive Moves (cfg : Config τ) (s : Attempts τ) : Attempts τ → Prop
  | ended {s' : Attempts τ} :
    Same s s' → s'.phase = .ended → Moves cfg s s'
  | submitted {now : τ} :
    s.phase = .unsubmitted → Moves cfg s (submit cfg s now)
  | entered {now : τ} :
    s.phase = .queued → cfg.provider = false → Moves cfg s (enterRetryLoop cfg { s with started := now } none now)
  | authorizing {now authorize : τ} :
    s.phase = .queued → cfg.provider = true →
    Moves cfg s
      { pauseRequestDeadline cfg s now with
        clock := authorize
        started := authorize
        authDeadline := s.authorizationDeadline <|> cfg.authTimeout.map (authorize + ·)
        phase := .authorizing }
  | authenticating {now : τ} :
    s.phase = .authorizing → s.clock ≤ now → timeLeft s.authDeadline now →
    Moves cfg s
      { s with clock := now, authentications := s.authentications ++ [now], phase := .authenticating }
  | repeating {now : τ} :
    s.phase = .authenticating → Moves cfg s { s with clock := now, phase := .authorizing }
  | authenticated {token : Text} {resume enter : τ} :
    s.phase = .authenticating → s.clock ≤ resume → Moves cfg s (authenticated cfg s token resume enter)
  | refused {pause authorize : τ} {attempt : Nat} :
    s.phase.InLoop → cfg.provider = true → s.attempt ≤ attempt →
    Moves cfg s
      { pauseRequestDeadline cfg s pause with clock := authorize, attempt := attempt, phase := .authorizing }
  | retried {f : Failure} {now : τ} {attempt : Nat} :
    s.phase.InLoop → f.isRetriable → s.attempt ≤ attempt → retriesLeft cfg attempt →
    Moves cfg s { s with clock := now, attempt := attempt, phase := .attempting (some f) }
  | opened {follows : Option Failure} {now clip : τ} :
    s.phase = .attempting follows → timeLeft s.deadline now → now ≤ clip →
    Moves cfg s (send cfg s follows now clip none)

namespace Moves

theorem pauseRequestDeadline_eq (cfg : Config τ) (s : Attempts τ) (now : τ) :
    ∃ remaining deadline paused,
      (cfg.timeout = none ∨ paused = true) ∧ (cfg.timeout = none → deadline = s.requestDeadline) ∧
      pauseRequestDeadline cfg s now =
        { s with
          requestTimeoutRemaining := remaining
          requestDeadline := deadline
          requestDeadlinePaused := paused } := by
  unfold pauseRequestDeadline
  split
  case h_1 _ ht => exact ⟨_, _, _, .inl ht, fun _ => rfl, rfl⟩
  case h_2 _ hb => exact ⟨_, _, _, .inr hb, fun _ => rfl, rfl⟩
  case h_3 ht _ => exact ⟨_, _, _, .inr rfl, by simp [ht], rfl⟩

theorem resumeRequestDeadline_eq (cfg : Config τ) (s : Attempts τ) (now : τ) :
    ∃ deadline paused,
      (cfg.timeout = none → deadline = s.requestDeadline) ∧
      (s.requestDeadlinePaused = true → ∀ timeout, cfg.timeout = some timeout →
        deadline = some (now + s.requestTimeoutRemaining.getD (max 0 timeout))) ∧
      resumeRequestDeadline cfg s now =
        { s with
          requestDeadline := deadline
          requestDeadlinePaused := paused } := by
  unfold resumeRequestDeadline
  split
  case h_1 _ ht => exact ⟨_, _, fun _ => rfl, by simp [ht], rfl⟩
  case h_2 _ hb => exact ⟨_, _, fun _ => rfl, by simp [hb], rfl⟩
  case h_3 ht _ => exact ⟨_, _, by simp [ht], by simp [ht], rfl⟩

theorem pauseRequestDeadline_comm {attempt : Nat} {clock now : τ} :
    pauseRequestDeadline cfg { s with attempt := attempt, clock := clock } now =
      { pauseRequestDeadline cfg s now with attempt := attempt, clock := clock } := by
  unfold pauseRequestDeadline
  dsimp only
  split <;> rfl

theorem ended_pause {attempt : Nat} {clock now : τ} (ha : s.attempt ≤ attempt) :
    Moves cfg s { pauseRequestDeadline cfg s now with attempt := attempt, clock := clock, phase := .ended } := by
  obtain ⟨_, _, _, _, _, he⟩ := pauseRequestDeadline_eq cfg s now
  rw [he]
  exact .ended ⟨rfl, rfl, ha, rfl, rfl, rfl, rfl, rfl, rfl⟩ rfl

theorem fail {h : Handling τ} {attempt : Nat} {clock : τ} (hp : s.phase.InLoop) (ha : s.attempt ≤ attempt) :
    Moves cfg s (fail cfg { s with attempt := attempt, clock := clock } h) := by
  unfold Attempts.fail
  split
  case isTrue hw =>
    split
    case isTrue => exact .ended ⟨rfl, rfl, ha, rfl, rfl, rfl, rfl, rfl, rfl⟩ rfl
    simp only [wantsRetry, Bool.and_eq_true] at hw
    exact .retried hp hw.1.1.2 ha hw.1.2
  split
  case isTrue => exact .ended ⟨rfl, rfl, ha, rfl, rfl, rfl, rfl, rfl, rfl⟩ rfl
  case isFalse hv =>
    rw [pauseRequestDeadline_comm]
    dsimp only
    split
    · exact .refused hp (by simpa using hv) ha
    · exact ended_pause ha

theorem of_step {e : Event τ} (h : step cfg s e = some s') : Moves cfg s s' := by
  cases e <;> simp only [step] at h
  case attempt now clip raised =>
    split at h
    case h_2 => cases h
    case h_1 follows hp =>
      obtain ⟨⟨hn, hc, _⟩, ⟨⟩⟩ := Option.ite_none_right_eq_some.mp h
      unfold attemptCall
      split
      case isFalse =>
        exact .ended ⟨rfl, rfl, Nat.le_succ _, rfl, rfl, rfl, rfl, rfl, rfl⟩ rfl
      case isTrue ht =>
        cases raised
        case none => exact .opened hp ht hc
        case some => exact fail (.inr ⟨follows, hp⟩) (Nat.le_succ _)
  case ends =>
    obtain ⟨_, ⟨⟩⟩ := Option.ite_none_left_eq_some.mp h
    exact .ended ⟨rfl, rfl, le_rfl, rfl, rfl, rfl, rfl, rfl, rfl⟩ rfl
  all_goals obtain ⟨hp, ⟨⟩⟩ := Option.ite_none_right_eq_some.mp h
  case submit => exact .submitted hp
  case start dispatch now authorize =>
    unfold start
    split
    case isTrue => exact .ended ⟨rfl, rfl, le_rfl, rfl, rfl, rfl, rfl, rfl, rfl⟩ rfl
    split
    case isTrue hv => exact .entered hp.1 (by simpa using hv)
    case isFalse hv => exact .authorizing hp.1 (by simpa using hv)
  case authorize now =>
    unfold Attempts.authorize
    split
    case isTrue ht => exact .authenticating hp.1 hp.2 ht
    case isFalse => exact .ended ⟨rfl, rfl, le_rfl, rfl, rfl, rfl, rfl, rfl, rfl⟩ rfl
  case authenticated => exact .authenticated hp.1 hp.2.1
  case authenticationFailed =>
    unfold authenticationFailed
    split
    · exact .repeating hp.1
    · exact .ended ⟨rfl, rfl, le_rfl, rfl, rfl, rfl, rfl, rfl, rfl⟩ rfl
  case failed h => exact fail (.inl hp.1) le_rfl

end Moves

end Attempts

end Aio
