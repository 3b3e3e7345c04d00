import PysdkModel.Aio.Theorems.Budget
import PysdkModel.Aio.Theorems.Leases

-- The loops of a request without its flags and its transport. What a run of a request does to its deadlines, to the
-- number of its attempt and to its phase is a run of its attempts, for any metadata.

namespace Aio.Request

open Machine (Reaches anyEvent)

structure Schedule where
  clock : Nat
  phase : Phase
  requestDeadline : Option Nat
  authorizationDeadline : Option Nat
  dispatchDeadline : Option Nat
  authDeadline : Option Nat
  deadline : Option Nat
  attempt : Nat
  calls : Nat

def schedule (s : Request) : Schedule where
  clock := s.clock
  phase := s.phase
  requestDeadline := s.requestDeadline
  authorizationDeadline := s.authorizationDeadline
  dispatchDeadline := s.dispatchDeadline
  authDeadline := s.authDeadline
  deadline := s.deadline
  attempt := s.attempt
  calls := s.calls.length

variable {cfg : Config} {s t : Request} {source : Source} {r : Raised} {f : Failure} {ts : Times}
  {canRetry : Option Bool} {now : Nat}

inductive Leads (cfg : Config) (authDeadline : Option Nat) (f : Failure) (now : Nat) (canRetry : Option Bool) :
    Bool → Phase → Prop
  | ended {retry : Bool} (o : Outcome) : Leads cfg authDeadline f now canRetry retry (.ended o)
  | retried : Leads cfg authDeadline f now canRetry true .attempting
  | reauthorized : cfg.provider = true → f.isUnauthenticated = true → timeLeft authDeadline now = true →
    canRetry = some true → Leads cfg authDeadline f now canRetry false .authorizing

theorem schedule_authorizationRetry (hp : cfg.provider = true) : ∃ p, Leads cfg s.authDeadline f now canRetry false p ∧
    schedule (authorizationRetry cfg s source f now canRetry) = { schedule s with phase := p } := by
  unfold authorizationRetry
  cases f with
  | other _ => exact ⟨_, .ended _, rfl⟩
  | request status =>
    rcases canRetry with _ | _ | _ <;> dsimp only <;> split_ifs with hc ht
    all_goals first
      | exact ⟨_, .ended _, rfl⟩
      | exact ⟨_, .reauthorized hp (by simpa [Failure.isUnauthenticated] using hc) (by simpa using ht) rfl, rfl⟩

theorem schedule_raise : ∃ p, Leads cfg s.authDeadline f ts.authorize canRetry false p ∧
    schedule (raise cfg s source f ts canRetry) = { schedule s with phase := p } := by
  have hl : schedule (leaveRetryLoop cfg s f ts.expire) = schedule s := by
    unfold leaveRetryLoop
    repeat' split
    all_goals rfl
  unfold raise
  dsimp only
  rw [← hl, show s.authDeadline = (leaveRetryLoop cfg s f ts.expire).authDeadline from
    congrArg (·.authDeadline) hl.symm]
  split
  case isTrue hp => exact schedule_authorizationRetry hp
  case isFalse => exact ⟨_, .ended _, rfl⟩

theorem schedule_fail (cfg : Config) (s : Request) (source : Source) (r : Raised) (ts : Times)
    (canRetry : Option Bool) : ∃ p, Leads cfg s.authDeadline r.failure ts.authorize canRetry
      (wantsRetry cfg (classifyRaised cfg s r ts.classify) r.failure ts.decide) p ∧
    schedule (fail cfg s source r ts canRetry) = { schedule s with phase := p } := by
  have hc : schedule (classifyRaised cfg s r ts.classify) = schedule s := by cases r <;> rfl
  have ha : (classifyRaised cfg s r ts.classify).authDeadline = s.authDeadline := by cases r <;> rfl
  unfold fail
  rw [← hc, ← ha]
  generalize classifyRaised cfg s r ts.classify = u
  have hd : schedule (decide cfg u r.failure ts.decide).2 = schedule u := rfl
  have hv : (decide cfg u r.failure ts.decide).1 = .cancelled ∨
      (decide cfg u r.failure ts.decide).1 = if wantsRetry cfg u r.failure ts.decide then .retry else .raise := by
    unfold decide
    dsimp only
    split
    · exact .inl rfl
    · exact .inr rfl
  rcases hx : decide cfg u r.failure ts.decide with ⟨v, w⟩
  rw [hx] at hd hv
  rw [← hd]
  rcases hv with rfl | rfl
  · exact ⟨_, .ended _, rfl⟩
  cases wantsRetry cfg u r.failure ts.decide
  · rw [show u.authDeadline = w.authDeadline from congrArg (·.authDeadline) hd.symm]
    exact schedule_raise
  · exact ⟨_, .retried, rfl⟩

theorem schedule_cancel (s : Request) : schedule s.cancel.2 = schedule s := by
  unfold cancel
  repeat' split
  all_goals rfl

theorem schedule_expire (s : Request) (synchronous : Bool) : schedule (s.expire synchronous) = schedule s := by
  have hw : schedule s.expireWait.2 = schedule s := by
    unfold expireWait
    repeat' split
    all_goals first | rfl | exact schedule_cancel s
  unfold expire
  split <;> exact hw

-- `base` has what a request does not look at.
def Config.attempts (cfg : Config) (base : Attempts.Config Int) : Attempts.Config Int :=
  { base with
    timeout := cfg.timeout.map (↑)
    authTimeout := cfg.authTimeout.map (↑)
    retries := cfg.retries.map (↑)
    authorizationApplies := cfg.authorizationApplies
    provider := cfg.provider }

structure Follows (cfg : Config) (s : Schedule) (a : Attempts Int) : Prop where
  clock : a.clock ≤ s.clock
  dispatchDeadline : a.dispatchDeadline = s.dispatchDeadline.map (↑)
  authorizationDeadline : a.authorizationDeadline = s.authorizationDeadline.map (↑)
  authDeadline : a.authDeadline = s.authDeadline.map (↑)
  deadline : a.deadline = s.deadline.map (↑)
  attempt : a.attempt = s.attempt
  opened : a.opened.length = s.calls
  untimed : cfg.timeout = none → a.requestDeadline = none
  phase : match s.phase with
    | .unsubmitted => a.phase = .unsubmitted
    | .queued | .created =>
      a.phase = .queued ∧ a.requestDeadline = s.requestDeadline.map (↑) ∧
        (s.requestDeadline = none → cfg.timeout = none)
    | .authorizing => a.phase = .authorizing ∧ (cfg.timeout = none ∨ a.requestDeadlinePaused = true)
    | .authenticating => a.phase = .authenticating ∧ (cfg.timeout = none ∨ a.requestDeadlinePaused = true)
    | .attempting => ∃ follows, a.phase = .attempting follows
    | .calling | .shielded | .completing | .recompleting => a.phase = .calling
    | .ended _ => a.phase = .ended

variable {base : Attempts.Config Int} {a : Attempts Int} {u : Schedule}

theorem timeLeft_cast {d : Option Int} {deadline : Option Nat} (h : d = deadline.map (↑)) (now : Nat) :
    Attempts.timeLeft d (now : Int) = timeLeft deadline now := by
  cases deadline <;> simp [h, Attempts.timeLeft, timeLeft]

theorem earlier_cast (d₁ d₂ : Option Nat) :
    Attempts.earlier (d₁.map ((↑) : Nat → Int)) (d₂.map (↑)) = (earlier d₁ d₂).map (↑) := by
  cases d₁ <;> cases d₂ <;> simp [Attempts.earlier, earlier]

-- A request has no negative timeouts.
theorem deadline_cast (timeout : Option Nat) (now : Nat) :
    (timeout.map ((↑) : Nat → Int)).map (fun t => (now : Int) + max t 0) = (timeout.map (now + ·)).map (↑) := by
  cases timeout <;> simp

theorem initial_follows : Follows cfg (schedule (initial cfg)) (Attempts.initial (cfg.attempts base)) := by
  constructor <;> simp [schedule, initial, Attempts.initial, calls]

-- The attempts have a run that takes them to `u`.
def Led (cfg : Config) (base : Attempts.Config Int) (a : Attempts Int) (u : Schedule) : Prop :=
  ∃ a', Reaches (Attempts.step (cfg.attempts base)) anyEvent a a' ∧ Follows cfg u a'

attribute [local simp] schedule

namespace Follows

theorem halt (h : Follows cfg u a) (o : Outcome) :
    Follows cfg { u with phase := .ended o } { a with phase := .ended } :=
  { h with phase := rfl }

theorem tick (h : Follows cfg u a) (hn : u.clock ≤ now) : Follows cfg { u with clock := now } a :=
  { h with clock := h.clock.trans (Int.ofNat_le.mpr hn) }

theorem ends (h : Follows cfg u a) (base : Attempts.Config Int) (hp : u.phase ≠ .unsubmitted) (o : Outcome) :
    Led cfg base a { u with phase := .ended o } := by
  refine ⟨_, .single (a := .ends) trivial (if_neg fun ha => ?_), h.halt o⟩
  have hx := h.phase
  cases hu : u.phase <;> simp [hu, ha] at hx hp

theorem pause (h : Follows cfg u a) (base : Attempts.Config Int) (now : Int) :
    Follows cfg { u with phase := .authorizing }
      { Attempts.pauseRequestDeadline (cfg.attempts base) a now with phase := .authorizing } := by
  unfold Attempts.pauseRequestDeadline Config.attempts
  cases ht : cfg.timeout <;> cases hp : a.requestDeadlinePaused
  all_goals exact { h with phase := ⟨rfl, by simp [ht, hp]⟩, untimed := fun hn => by simp_all [h.untimed] }

variable (h : Follows cfg (schedule s) a)
include h

theorem submit (hp : s.phase = .unsubmitted) : Led cfg base a (schedule (submit cfg s now true)) := by
  have ha := h.phase
  simp only [schedule, hp] at ha
  refine ⟨_, .single (a := .submit now) trivial (if_pos ha), ?_⟩
  exact {
    h with
    clock := le_rfl
    dispatchDeadline := by
      simp only [Attempts.submit, schedule, Request.submit, Config.attempts, deadline_cast, if_true]
      split
      · exact earlier_cast ..
      · rfl
    authorizationDeadline := by
      simp only [Attempts.submit, schedule, Request.submit, Config.attempts, deadline_cast, if_true]
      split <;> rfl
    untimed := fun ht => by simp [Attempts.submit, Config.attempts, ht]
    phase := ⟨rfl, deadline_cast .., by simp [Request.submit]⟩ }

theorem start (hp : s.phase = .created) (hn : s.clock ≤ now) (providerRaises : Bool) :
    Led cfg base a (schedule (start cfg s now providerRaises)) := by
  have ha := h.phase
  simp only [schedule, hp] at ha
  obtain ⟨ha, hr, ht⟩ := ha
  have r : Reaches (Attempts.step (cfg.attempts base)) anyEvent a (Attempts.start (cfg.attempts base) a now now now) :=
    .single (a := .start now now now) trivial (if_pos ⟨ha, (h.tick hn).clock, le_rfl, le_rfl⟩)
  have he (o : Outcome) := (h.tick hn).ends base (by simp [hp]) o
  unfold Attempts.start at r
  unfold Request.start
  dsimp only
  rw [timeLeft_cast h.dispatchDeadline] at r
  split_ifs with h₁ h₂ h₃ h₄
  · exact he _
  · exact he _
  · refine ⟨_, by simpa [h₁, Config.attempts, h₃] using r, ?_⟩
    exact {
      h with
      clock := le_rfl
      deadline := by cases hx : s.requestDeadline <;> simp_all [Attempts.enterRetryLoop, Attempts.earlier]
      attempt := rfl
      phase := ⟨_, rfl⟩ }
  · exact he _
  · refine ⟨_, by simpa [h₁, Config.attempts, h₃] using r, ?_⟩
    exact {
      h.pause base now with
      clock := le_rfl
      authDeadline := by
        have hx := h.authorizationDeadline
        cases hs : s.authorizationDeadline <;> cases ht : cfg.authTimeout <;> simp_all }

theorem authorize (hp : s.phase = .authorizing) (hn : s.clock ≤ now) : Led cfg base a (schedule (s.authorize now)) := by
  have ha := h.phase
  simp only [schedule, hp] at ha
  unfold Request.authorize
  dsimp only
  split_ifs with ht
  · exact (h.tick hn).ends base (by simp [hp]) _
  · refine ⟨_, .single (a := .authorize now) trivial (if_pos ⟨ha.1, (h.tick hn).clock⟩), ?_⟩
    rw [Attempts.authorize, timeLeft_cast h.authDeadline, if_pos (by simpa using ht)]
    exact { h with clock := le_rfl, phase := ⟨rfl, ha.2⟩ }

theorem authenticated (hp : s.phase = .authenticating) (hn : s.clock ≤ now) (how : Authenticated) :
    Led cfg base a (schedule (authenticated cfg s how now)) := by
  have ha := h.phase
  simp only [schedule, hp] at ha
  have hc : a.clock ≤ now := (h.tick hn).clock
  have he (o : Outcome) := (h.tick hn).ends base (by simp [hp]) o
  unfold Request.authenticated
  cases how <;> dsimp only
  case ok =>
    refine ⟨_, .single (a := .authenticated [] now now) trivial (if_pos ⟨ha.1, hc, le_rfl⟩), ?_⟩
    have hx : a.authDeadline = s.authDeadline.map (↑) := h.authDeadline
    unfold Attempts.authenticated Attempts.resumeRequestDeadline Attempts.enterRetryLoop
    cases ht : cfg.timeout <;> simp only [Config.attempts, ht, Option.map_none, Option.map_some]
    case none =>
      exact {
        h with
        clock := le_rfl
        deadline := by simp [h.untimed ht, hx, ← earlier_cast]
        attempt := rfl
        phase := ⟨_, rfl⟩ }
    case some timeout =>
      simp only [ha.2.resolve_left (by simp [ht])]
      exact {
        h with
        clock := le_rfl
        deadline := by simp [hx, ← earlier_cast]
        attempt := rfl
        untimed := by simp [ht]
        phase := ⟨_, rfl⟩ }
  case raises canRetry =>
    split_ifs with h₁ h₂
    · exact he _
    · refine ⟨_, .single (a := .authenticationFailed canRetry now) trivial (if_pos ⟨ha.1, hc⟩), ?_⟩
      rw [Attempts.authenticationFailed, timeLeft_cast h.authDeadline, if_pos (by simpa [h₂] using h₁)]
      exact { h with clock := le_rfl, phase := ⟨rfl, ha.2⟩ }
    · exact he _

end Follows

def handling (cfg : Config) (s : Request) (source : Source) (r : Raised) (ts : Times) (canRetry : Option Bool) :
    Attempts.Handling Int where
  failure := r.failure
  decide := ts.decide
  pause := ts.expire
  authorize := ts.authorize
  expired :=
    (classifyRaised cfg s r ts.classify).deadlineExpired && !(classifyRaised cfg s r ts.classify).retryDecisionPending
  cancelled := (fail cfg s source r ts canRetry).phase matches .ended _
  canRetry := canRetry

namespace Follows

variable (h : Follows cfg (schedule s) a)
include h

theorem wantsRetry_eq : Attempts.wantsRetry (cfg.attempts base) a (handling cfg s source r ts canRetry) =
    wantsRetry cfg (classifyRaised cfg s r ts.classify) r.failure ts.decide := by
  have hd : (classifyRaised cfg s r ts.classify).deadline = s.deadline := by cases r <;> rfl
  have ha : (classifyRaised cfg s r ts.classify).attempt = s.attempt := by cases r <;> rfl
  have hr : Attempts.retriesLeft (cfg.attempts base) a.attempt =
      retriesLeft cfg (classifyRaised cfg s r ts.classify) := by
    unfold Attempts.retriesLeft retriesLeft
    rw [ha, h.attempt]
    cases hr : cfg.retries <;> simp [Config.attempts, hr]
  simp only [Attempts.wantsRetry, wantsRetry, handling, hd, timeLeft_cast h.deadline, hr]
  rfl

theorem fail (hc : s.clock = ts.authorize) (ho : ts.decide ≤ ts.authorize) (source : Source) (r : Raised)
    (canRetry : Option Bool) :
    Follows cfg (schedule (fail cfg s source r ts canRetry))
      (Attempts.fail (cfg.attempts base) a (handling cfg s source r ts canRetry)) := by
  obtain ⟨p, hl, hs⟩ := schedule_fail cfg s source r ts canRetry
  have hp : (Request.fail cfg s source r ts canRetry).phase = p := congrArg (·.phase) hs
  have hd : (ts.decide : Int) ≤ s.clock := by omega
  have ha : (ts.authorize : Int) ≤ s.clock := by omega
  unfold Attempts.fail
  rw [hs, wantsRetry_eq h]
  cases hw : wantsRetry cfg (classifyRaised cfg s r ts.classify) r.failure ts.decide <;> rw [hw] at hl <;> cases hl <;>
    simp only [handling, hp]
  case false.ended o =>
    split
    · cases ‹false = true›
    split
    · exact { h.halt o with clock := hd }
    · simp only [Bool.not_true, Bool.and_false]
      exact { (h.pause base ts.expire).halt o with clock := ha }
  case false.reauthorized hv hu ht hc =>
    simp only [schedule, Config.attempts, hv, hu, hc, timeLeft_cast h.authDeadline, ht, Bool.false_eq_true, ↓reduceIte,
      Bool.not_true, Bool.and_self, decide_true, Bool.not_false]
    exact { h.pause base ts.expire with clock := ha }
  case true.ended o => exact { h.halt o with clock := hd }
  case true.retried => exact { h with clock := hd, phase := ⟨_, rfl⟩ }

theorem failed (hp : a.phase = .calling) (ho : ts.InOrder s.clock)
    (ht : schedule t = { schedule s with clock := ts.authorize }) (source : Source) (r : Raised)
    (canRetry : Option Bool) :
    Led cfg base a (schedule (Request.fail cfg t source r ts canRetry)) := by
  obtain ⟨h₁, h₂, h₃, h₄, h₅⟩ := ho
  have hc : (a.clock : Int) ≤ s.clock := h.clock
  have h' : Follows cfg (schedule t) a := ht ▸ h.tick (show s.clock ≤ ts.authorize by omega)
  refine ⟨_, .single (a := .failed (handling cfg t source r ts canRetry)) trivial (if_pos ⟨hp, ?_⟩),
    h'.fail (congrArg (·.clock) ht) (h₄.trans h₅) source r canRetry⟩
  simp only [Attempts.Handling.InOrder, handling]
  omega

theorem attempted (hp : s.phase = .attempting) (ho : ts.InOrder s.clock) (how : Send) (canRetry : Option Bool) :
    Led cfg base a (schedule (attemptCall cfg { s with clock := ts.authorize } how ts canRetry)) := by
  obtain ⟨h₁, h₂, h₃, h₄, h₅⟩ := ho
  have ha := h.phase
  simp only [schedule, hp] at ha
  obtain ⟨f, ha⟩ := ha
  have hc : (a.clock : Int) ≤ s.clock := h.clock
  have r (raised : Option (Attempts.Handling Int)) (hr : ∀ h ∈ raised, h.InOrder ts.classify) :
      Reaches (Attempts.step (cfg.attempts base)) anyEvent a
        (Attempts.attemptCall (cfg.attempts base) a f ts.dispatch ts.classify raised) := by
    refine .single (a := .attempt ts.dispatch ts.classify raised) trivial ?_
    simp only [Attempts.step, ha]
    exact if_pos ⟨by omega, by omega, hr⟩
  have h' : Follows cfg { schedule s with clock := ts.authorize, attempt := s.attempt + 1 }
      { a with attempt := a.attempt + 1, clock := ts.classify } :=
    { h with clock := by simp only; omega, attempt := congrArg (· + 1) h.attempt }
  have fails {t : Request} (ht : schedule t = { schedule s with clock := ts.authorize, attempt := s.attempt + 1 })
      (hl : timeLeft (schedule s).deadline ts.dispatch = true) (x : Raised) :
      Led cfg base a (schedule (Request.fail cfg t .send x ts canRetry)) := by
    refine ⟨_, r (some (handling cfg t .send x ts canRetry)) ?_, ?_⟩
    · rintro _ ⟨⟩
      simp only [Attempts.Handling.InOrder, handling]
      omega
    · rw [Attempts.attemptCall, timeLeft_cast h.deadline, if_pos hl]
      exact (ht ▸ h').fail (congrArg Schedule.clock ht) (h₄.trans h₅) _ _ _
  unfold attemptCall
  split_ifs with hx hl
  · exact (h.tick (show s.clock ≤ ts.authorize by omega)).ends base (by simp [hp]) _
  · refine ⟨_, r none (by simp), ?_⟩
    rw [Attempts.attemptCall, timeLeft_cast h.deadline, if_neg (by simpa using hl)]
    exact { h'.halt _ with clock := show (ts.dispatch : Int) ≤ ts.authorize by omega }
  · have hl : timeLeft (schedule s).deadline ts.dispatch = true := by simpa using hl
    unfold send
    split
    · refine ⟨_, r none (by simp), ?_⟩
      rw [Attempts.attemptCall, timeLeft_cast h.deadline, if_pos hl]
      exact {
        h' with
        opened := by simp [Attempts.send, h.opened, openCall, acquire, calls, Nat.add_assoc]
        phase := rfl }
    all_goals exact fails rfl hl _

theorem step {e : Event} (hs : step cfg s e = some t) : Led cfg base a (schedule t) := by
  have hx := h.phase
  -- nothing changes that the attempts have
  have keep (ht : schedule t = schedule s) : Led cfg base a (schedule t) := ⟨a, .refl, ht ▸ h⟩
  cases e
  case resume ts canRetry =>
    obtain ⟨o, -, hp, ho, rfl⟩ := step_resume hs
    have hn : s.clock ≤ ts.authorize := by obtain ⟨h₁, h₂, h₃, h₄, h₅⟩ := ho; omega
    have hc : a.phase = .calling := by rcases hp with hp | hp <;> simpa [hp] using hx
    unfold resume
    split
    · exact ⟨a, .refl, { h.tick hn with phase := hc }⟩
    · exact h.failed hc ho rfl ..
    · split
      · exact ⟨a, .refl, { h.tick hn with phase := hc }⟩
      · exact (h.tick hn).ends base (by rcases hp with hp | hp <;> simp [hp]) _
  all_goals simp only [Request.step, Option.ite_none_right_eq_some, Option.some.injEq] at hs
  case submit now accepted =>
    obtain ⟨⟨hp, hn⟩, rfl⟩ := hs
    cases accepted
    · exact ⟨a, .refl, h.tick hn⟩
    · exact h.submit hp
  case dispatch created =>
    obtain ⟨hp, rfl⟩ := hs
    simp only [schedule, hp] at hx
    unfold dispatch
    split_ifs
    · exact h.ends base (by simp [hp]) _
    · exact ⟨a, .refl, { h with phase := hx }⟩
    · exact h.ends base (by simp [hp]) _
  case releaseIfUnstarted =>
    obtain ⟨-, rfl⟩ := hs
    exact keep (by unfold releaseIfUnstarted; split <;> rfl)
  case start now providerRaises => exact hs.2 ▸ h.start hs.1.1 hs.1.2 providerRaises
  case authorize now => exact hs.2 ▸ h.authorize hs.1.1 hs.1.2
  case authenticated how now => exact hs.2 ▸ h.authenticated hs.1.1 hs.1.2 how
  case attempt how ts canRetry => exact hs.2 ▸ h.attempted hs.1.1 hs.1.2 how canRetry
  case nativeDone o =>
    obtain ⟨-, rfl⟩ := hs
    exact keep (by cases hc : s.call <;> simp [markNativeAttemptTerminal, calls, hc])
  case processed p ts canRetry =>
    obtain ⟨⟨hp, ho⟩, rfl⟩ := hs
    have hn : s.clock ≤ ts.authorize := by obtain ⟨h₁, h₂, h₃, h₄, h₅⟩ := ho; omega
    unfold complete
    split
    · exact (h.tick hn).ends base (by rcases hp with hp | hp <;> simp [hp]) _
    · exact h.failed (by rcases hp with hp | hp <;> simpa [hp] using hx) ho rfl ..
  case deliver =>
    obtain ⟨-, hs⟩ := hs
    unfold deliver at hs
    dsimp only at hs
    split at hs <;> cases hs
    case h_1 hp => exact h.ends base (by simp [hp]) _
    case h_2 hp => exact h.ends base (by simp [hp]) _
    case h_3 hp =>
      have hp : s.phase = .calling := hp
      split
      · exact ⟨a, .refl, { h with phase := by simpa [hp] using hx }⟩
      · exact h.ends base (by simp [hp]) _
    case h_4 hp => exact ⟨a, .refl, { h with phase := by simpa [hp] using hx }⟩
  case publish =>
    split at hs <;> cases hs
    exact keep (by unfold copyOutcome; split <;> rfl)
  case cancel => exact keep (hs ▸ schedule_cancel s)
  case expire => exact keep (hs.2 ▸ schedule_expire s _)
  case abandon => exact keep (hs.2 ▸ rfl)
  case cancelTask => exact keep (hs ▸ rfl)

end Follows

-- Every run of a request is, for its loops, one of its attempts.
theorem reaches_attempts (base : Attempts.Config Int) (r : Reaches (step cfg) anyEvent (initial cfg) s) :
    ∃ a, Reaches (Attempts.step (cfg.attempts base)) anyEvent (Attempts.initial (cfg.attempts base)) a ∧
      Follows cfg (schedule s) a :=
  r.simulates (R := fun s a => Follows cfg (schedule s) a) (fun h _ e => h.step e) initial_follows

-- No retry loop of a request opens more native calls than `retries` allows.
theorem reaches_cycles (base : Attempts.Config Int) {retries : Nat} (hr : cfg.retries = some retries)
    (r : Reaches (step cfg) anyEvent (initial cfg) s) :
    ∃ cycles : List Nat, cycles.length = s.calls.length ∧ ∀ c, cycles.count c ≤ max 1 retries := by
  obtain ⟨a, ra, h⟩ := reaches_attempts base r
  have hc := ra.invariant (I := Attempts.Counts (cfg.attempts base)) (fun h _ => h.step) .initial
  refine ⟨a.opened.map (·.cycle), by simpa using h.opened, fun c => ?_⟩
  have hb := hc.bound retries (by simp [Config.attempts, hr]) c
  have he : (a.opened.map (·.cycle)).count c = a.opened.countP (·.cycle = c) := List.countP_map
  omega

end Aio.Request
