import PysdkModel.Aio.Theorems.Attempts

namespace Aio

namespace Attempts

variable {τ : Type} [AddCommGroup τ] [LinearOrder τ] {cfg : Config τ} {s s' : Attempts τ}

structure Counts (cfg : Config τ) (s : Attempts τ) : Prop where
  cycle_le : ∀ a ∈ s.opened, a.cycle ≤ s.cycle
  count_le : s.opened.countP (·.cycle = s.cycle) ≤ s.attempt
  bound : ∀ r, cfg.retries = some r → ∀ c, (s.opened.countP (·.cycle = c) : Int) ≤ max 1 r
  follows : s.opened.Pairwise fun a b => a.cycle = b.cycle → ∃ f, b.follows = some f ∧ f.isRetriable
  first : s.phase = .attempting none → s.attempt = 0
  next : ∀ f, s.phase = .attempting (some f) → f.isRetriable ∧ retriesLeft cfg s.attempt

variable {now : τ} {follows : Option Failure}

namespace Counts

omit [LinearOrder τ] in
theorem initial : Counts cfg (initial cfg) := by
  constructor <;> simp [Attempts.initial]

omit [AddCommGroup τ] [LinearOrder τ] in
theorem frame (h : Counts cfg s) (ho : s'.opened = s.opened) (hc : s'.cycle = s.cycle)
    (ha : s.attempt ≤ s'.attempt) (hp : ∀ f, s'.phase ≠ .attempting f) : Counts cfg s' where
  cycle_le := by rw [ho, hc]; exact h.cycle_le
  count_le := by rw [ho, hc]; exact h.count_le.trans ha
  bound := by rw [ho]; exact h.bound
  follows := by rw [ho]; exact h.follows
  first := fun hf => absurd hf (hp _)
  next := fun f hf => absurd hf (hp _)

theorem enterRetryLoop {outer : Option τ} (h : Counts cfg s) (ho : s'.opened = s.opened)
    (hc : s'.cycle = s.cycle) : Counts cfg (enterRetryLoop cfg s' outer now) where
  cycle_le := by
    intro a ha
    exact (h.cycle_le a (ho ▸ ha)).trans (hc ▸ Nat.le_succ _)
  count_le := by
    refine Nat.le_of_eq (List.countP_eq_zero.mpr fun a ha => ?_)
    have := h.cycle_le a (ho ▸ ha)
    exact (Nat.lt_succ_of_le (hc ▸ this)).ne ∘ of_decide_eq_true
  bound := by rw [show (Attempts.enterRetryLoop cfg s' outer now).opened = _ from ho]; exact h.bound
  follows := by rw [show (Attempts.enterRetryLoop cfg s' outer now).opened = _ from ho]; exact h.follows
  first := fun _ => rfl
  next := by rintro _ ⟨⟩

omit [AddCommGroup τ] [LinearOrder τ] in
theorem attempt_lt (h : Counts cfg s) (hp : s.phase = .attempting follows) {r : Int}
    (hr : cfg.retries = some r) : (s.attempt : Int) < max 1 r := by
  cases follows
  case none =>
    rw [h.first hp]
    exact lt_max_of_lt_left (by decide)
  case some f =>
    have hl := (h.next f hp).2
    simp only [retriesLeft, hr, Option.all_some, decide_eq_true_eq] at hl
    exact lt_max_of_lt_right hl

theorem opened {clip : τ} (h : Counts cfg s) (hp : s.phase = .attempting follows) :
    Counts cfg (send cfg s follows now clip none) where
  cycle_le := by
    intro a ha
    rcases List.mem_append.mp ha with ha | ha
    · exact h.cycle_le a ha
    · rw [List.mem_singleton.mp ha]; exact le_rfl
  count_le := by
    refine (List.countP_append ..).le.trans (Nat.add_le_add h.count_le ?_)
    exact List.countP_le_length
  bound := by
    intro r hr c
    have hb := h.bound r hr c
    have hl := h.attempt_lt hp hr
    have hc := h.count_le
    simp only [send, List.countP_append, List.countP_singleton, decide_eq_true_eq]
    split
    case isTrue hs => subst hs; omega
    case isFalse => simpa using hb
  follows := by
    refine List.pairwise_append.mpr ⟨h.follows, List.pairwise_singleton _ _, ?_⟩
    intro a ha b hb hab
    rw [List.mem_singleton.mp hb] at hab ⊢
    have hpos : 0 < s.attempt := by
      have : 0 < s.opened.countP (·.cycle = s.cycle) := List.countP_pos_iff.mpr ⟨a, ha, by simpa using hab⟩
      exact this.trans_le h.count_le
    cases follows
    case none => exact absurd (h.first hp) hpos.ne'
    case some f => exact ⟨f, rfl, (h.next f hp).1⟩
  first := by rintro ⟨⟩
  next := by rintro _ ⟨⟩

theorem step {e : Event τ} (h : Counts cfg s) (hs : step cfg s e = some s') : Counts cfg s' := by
  cases Moves.of_step hs
  case ended hm hp => exact h.frame hm.opened hm.cycle hm.attempt (by simp [hp])
  case submitted => exact h.frame rfl rfl le_rfl (by simp [submit])
  case entered => exact h.enterRetryLoop rfl rfl
  case authorizing now authorize _ _ =>
    obtain ⟨_, _, _, hpaused, hnone, he⟩ := Moves.pauseRequestDeadline_eq cfg s now
    rw [he]
    exact h.frame rfl rfl le_rfl (by simp)
  case authenticating => exact h.frame rfl rfl le_rfl (by simp)
  case repeating => exact h.frame rfl rfl le_rfl (by simp)
  case authenticated token resume enter _ _ =>
    unfold authenticated
    obtain ⟨_, _, _, _, he⟩ := Moves.resumeRequestDeadline_eq cfg _ resume
    exact h.enterRetryLoop (by rw [he]) (by rw [he])
  case refused pause authorize attempt _ _ ha =>
    obtain ⟨_, _, _, hpaused, hnone, he⟩ := Moves.pauseRequestDeadline_eq cfg s pause
    rw [he]
    exact h.frame rfl rfl ha (by simp)
  case retried f now attempt _ hf ha hl =>
    refine { h with count_le := h.count_le.trans ha, first := by rintro ⟨⟩, next := ?_ }
    rintro _ ⟨⟩
    exact ⟨hf, hl⟩
  case opened hp _ _ => exact h.opened hp

end Counts

section

variable {deadline : Option τ} {now clip d : τ}

omit [AddCommGroup τ] in
theorem earlier_le {d₁ d₂ : Option τ} (h : d₁ = some d ∨ d₂ = some d) : ∃ e, earlier d₁ d₂ = some e ∧ e ≤ d := by
  cases d₁ <;> cases d₂
  case none.none => simp at h
  case none.some => exact ⟨d, by simpa [earlier] using h, le_rfl⟩
  case some.none => exact ⟨d, by simpa [earlier] using h, le_rfl⟩
  case some.some d₁ d₂ =>
    refine ⟨min d₁ d₂, rfl, ?_⟩
    simp only [Option.some.injEq] at h
    rcases h with rfl | rfl
    · exact min_le_left ..
    · exact min_le_right ..

variable [IsOrderedAddMonoid τ]

theorem nativeTimeout_le_deadline (cfg : Config τ) (hn : now < d) (hc : now ≤ clip) :
    ∃ t, nativeTimeout cfg (some d) now clip = some t ∧ t ≤ d - now := by
  simp only [nativeTimeout, Option.map_some]
  split
  case h_1 => exact ⟨_, rfl, le_rfl⟩
  case h_2 per _ =>
    split
    case isFalse => exact ⟨_, rfl, le_rfl⟩
    refine ⟨_, rfl, ?_⟩
    split
    · exact sub_nonneg.mpr hn.le
    · exact (min_le_right _ _).trans (sub_le_sub_left hc d)

omit [IsOrderedAddMonoid τ] in
theorem nativeTimeout_le_perRetry {p : τ} (hp : cfg.perRetryTimeout = some p) (hr : cfg.retries.all (0 < ·)) :
    ∃ t, nativeTimeout cfg deadline now clip = some t ∧ t ≤ max p 0 := by
  simp only [nativeTimeout, hp, hr, Bool.true_and]
  cases deadline
  case none => exact ⟨p, rfl, le_max_left ..⟩
  case some d =>
    simp only [Option.map_some, Option.all_some, decide_eq_true_eq]
    split
    case isFalse h => exact ⟨_, rfl, (not_lt.mp h).trans (le_max_left ..)⟩
    refine ⟨_, rfl, ?_⟩
    split
    · exact le_max_right ..
    · exact (min_le_left _ _).trans (le_max_left ..)

end

structure LoopClocks (cfg : Config τ) (s : Attempts τ) : Prop where
  deadline : s.deadline = earlier s.ownDeadline s.authDeadline
  fresh : cfg.provider = true →
    s.ownDeadline = (cfg.timeout.map fun t => s.resumed + max 0 t) ∧
    s.authentications.getLast?.getD s.started ≤ s.resumed
  plain : cfg.provider = false →
    s.ownDeadline = (cfg.timeout.map fun t => s.submitted + max t 0) ∧ s.authDeadline = none

structure QueuedClocks (cfg : Config τ) (s : Attempts τ) : Prop where
  auth : s.authDeadline = none
  request : s.requestDeadline = cfg.timeout.map fun t => s.submitted + max t 0
  authorization : s.authorizationDeadline =
    if cfg.authorizationApplies = some true then cfg.authTimeout.map fun t => s.submitted + max t 0 else none

def Untouched (s : Attempts τ) : Prop :=
  s.opened = [] ∧ s.authentications = [] ∧ (s.phase = .unsubmitted ∨ s.phase = .queued ∨ s.phase = .ended)

structure Clocks (cfg : Config τ) (s : Attempts τ) : Prop where
  limit : s.Untouched ∨ s.phase ≠ .unsubmitted ∧ s.phase ≠ .queued ∧
    s.authDeadline = if cfg.provider then authorizationLimit cfg s.submitted s.started else none
  unsubmitted : s.phase = .unsubmitted → s.authDeadline = none ∧ s.requestDeadline = none
  queued : s.phase = .queued → QueuedClocks cfg s
  unlimited : s.phase ≠ .ended → cfg.timeout = none → s.requestDeadline = none
  paused : s.phase = .authorizing ∨ s.phase = .authenticating →
    cfg.provider = true ∧ (cfg.timeout = none ∨ s.requestDeadlinePaused = true)
  asked : s.phase = .authenticating → ∃ r, s.authentications.getLast? = some r ∧ r ≤ s.clock
  loop : s.phase.InLoop → LoopClocks cfg s
  attempts : ∀ a ∈ s.opened, a.authDeadline = s.authDeadline ∧ a.InBudget cfg s.submitted
  authentications : ∀ r ∈ s.authentications, timeLeft s.authDeadline r

namespace Clocks

theorem initial : Clocks cfg (initial cfg) where
  limit := .inl ⟨rfl, rfl, .inl rfl⟩
  unsubmitted := fun _ => ⟨rfl, rfl⟩
  queued := by rintro ⟨⟩
  unlimited := fun _ _ => rfl
  paused := by rintro (⟨⟨⟩⟩ | ⟨⟨⟩⟩)
  asked := by rintro ⟨⟩
  loop := by rintro (⟨⟨⟩⟩ | ⟨_, ⟨⟩⟩)
  attempts := by simp [Attempts.initial]
  authentications := by simp [Attempts.initial]

theorem untouched (h : Clocks cfg s) (hp : s.phase = .unsubmitted ∨ s.phase = .queued) : s.Untouched := by
  rcases h.limit with hu | ⟨h₁, h₂, _⟩
  · exact hu
  · rcases hp with hp | hp <;> contradiction

theorem fixed (h : Clocks cfg s) (hp : s.phase ≠ .unsubmitted ∧ s.phase ≠ .queued ∧ s.phase ≠ .ended) :
    s.authDeadline = if cfg.provider then authorizationLimit cfg s.submitted s.started else none := by
  rcases h.limit with ⟨_, _, hu | hu | hu⟩ | ⟨_, _, hl⟩
  case inr => exact hl
  all_goals simp [hu] at hp

theorem ended (h : Clocks cfg s) (hm : Same s s') (hp : s'.phase = .ended) : Clocks cfg s' where
  limit := by
    rw [Untouched, hm.opened, hm.authentications, hm.authDeadline, hm.submitted, hm.started, hp]
    rcases h.limit with ⟨ho, ha, _⟩ | ⟨_, _, hl⟩
    · exact .inl ⟨ho, ha, .inr (.inr rfl)⟩
    · exact .inr ⟨by simp, by simp, hl⟩
  unsubmitted := by simp [hp]
  queued := by simp [hp]
  unlimited := by simp [hp]
  paused := by simp [hp]
  asked := by simp [hp]
  loop := by simp [hp, Phase.InLoop]
  attempts := by rw [hm.opened, hm.authDeadline, hm.submitted]; exact h.attempts
  authentications := by rw [hm.authentications, hm.authDeadline]; exact h.authentications

omit [AddCommGroup τ] [LinearOrder τ] in
theorem inLoop_ne (h : s.phase.InLoop) : s.phase ≠ .unsubmitted ∧ s.phase ≠ .queued ∧ s.phase ≠ .ended := by
  rcases h with h | ⟨f, h⟩ <;> simp [h]

section

variable (hl : s.authDeadline = if cfg.provider then authorizationLimit cfg s.submitted s.started else none)
  (hu : cfg.timeout = none → s.requestDeadline = none)
  (ha : ∀ a ∈ s.opened, a.authDeadline = s.authDeadline ∧ a.InBudget cfg s.submitted)
  (hr : ∀ r ∈ s.authentications, timeLeft s.authDeadline r)
include hl hu ha hr

theorem of_waiting (hp : s.phase = .authorizing ∨ s.phase = .authenticating)
    (hv : cfg.provider = true ∧ (cfg.timeout = none ∨ s.requestDeadlinePaused = true))
    (hasked : s.phase = .authenticating → ∃ r, s.authentications.getLast? = some r ∧ r ≤ s.clock) : Clocks cfg s := by
  refine ⟨.inr ⟨?_, ?_, hl⟩, ?_, ?_, fun _ => hu, fun _ => hv, hasked, ?_, ha, hr⟩ <;>
    rcases hp with hp | hp <;> simp [hp, Phase.InLoop]

theorem of_loop (hp : s.phase.InLoop) (hc : LoopClocks cfg s) : Clocks cfg s := by
  refine ⟨.inr ⟨?_, ?_, hl⟩, ?_, ?_, fun _ => hu, ?_, ?_, fun _ => hc, ha, hr⟩ <;>
    rcases hp with hp | ⟨f, hp⟩ <;> simp [hp]

end

theorem submitted (h : Clocks cfg s) (hp : s.phase = .unsubmitted) : Clocks cfg (submit cfg s now) where
  limit := .inl ⟨(h.untouched (.inl hp)).1, (h.untouched (.inl hp)).2.1, .inr (.inl rfl)⟩
  unsubmitted := by rintro ⟨⟩
  queued := fun _ => ⟨(h.unsubmitted hp).1, rfl, rfl⟩
  unlimited := fun _ ht => by simp [submit, ht]
  paused := by rintro (⟨⟨⟩⟩ | ⟨⟨⟩⟩)
  asked := by rintro ⟨⟩
  loop := by rintro (⟨⟨⟩⟩ | ⟨_, ⟨⟩⟩)
  attempts := by simp [submit, (h.untouched (.inl hp)).1]
  authentications := by simp [submit, (h.untouched (.inl hp)).2.1]

theorem entered (h : Clocks cfg s) (hp : s.phase = .queued) (hv : cfg.provider = false) :
    Clocks cfg (enterRetryLoop cfg { s with started := now } none now) := by
  have hq := h.queued hp
  obtain ⟨ho, ha, -⟩ := h.untouched (.inr hp)
  have hn : (enterRetryLoop cfg { s with started := now } none now).ownDeadline =
      cfg.timeout.map fun t => s.submitted + max t 0 := by
    simp only [enterRetryLoop, hq.request]
    cases cfg.timeout <;> rfl
  refine of_loop (by rw [hv]; exact hq.auth) (h.unlimited (by simp [hp])) (by simp [enterRetryLoop, ho])
    (by simp [enterRetryLoop, ha]) (.inr ⟨none, rfl⟩) ⟨?_, by simp [hv], fun _ => ⟨hn, hq.auth⟩⟩
  simp [enterRetryLoop, hq.auth]

theorem authorizing {authorize : τ} (h : Clocks cfg s) (hp : s.phase = .queued) (hv : cfg.provider = true) :
    Clocks cfg
      { pauseRequestDeadline cfg s now with
        clock := authorize
        started := authorize
        authDeadline := s.authorizationDeadline <|> cfg.authTimeout.map (authorize + ·)
        phase := .authorizing } := by
  obtain ⟨_, _, _, hpaused, hnone, he⟩ := Moves.pauseRequestDeadline_eq cfg s now
  have hu := h.untouched (.inr hp)
  rw [he]
  refine of_waiting ?_ (fun ht => (hnone ht).trans (h.unlimited (by simp [hp]) ht)) (by simp [hu.1]) (by simp [hu.2.1])
    (.inl rfl) ⟨hv, hpaused⟩ (by rintro ⟨⟩)
  rw [hv, if_pos rfl, authorizationLimit, ← (h.queued hp).authorization]

theorem authenticating (h : Clocks cfg s) (hp : s.phase = .authorizing)
    (ht : timeLeft s.authDeadline now) :
    Clocks cfg
      { s with clock := now, authentications := s.authentications ++ [now], phase := .authenticating } := by
  refine of_waiting (h.fixed (by simp [hp])) (h.unlimited (by simp [hp])) h.attempts (fun r hr => ?_) (.inr rfl)
    (h.paused (.inl hp)) fun _ => ⟨now, by simp, le_rfl⟩
  rcases List.mem_append.mp hr with hr | hr
  · exact h.authentications r hr
  · rw [List.mem_singleton.mp hr]; exact ht

theorem repeating (h : Clocks cfg s) (hp : s.phase = .authenticating) :
    Clocks cfg { s with clock := now, phase := .authorizing } :=
  of_waiting (h.fixed (by simp [hp])) (h.unlimited (by simp [hp])) h.attempts h.authentications (.inl rfl)
    (h.paused (.inr hp)) (by rintro ⟨⟩)

theorem refused {pause authorize : τ} {attempt : Nat} (h : Clocks cfg s) (hp : s.phase.InLoop)
    (hv : cfg.provider = true) :
    Clocks cfg
      { pauseRequestDeadline cfg s pause with clock := authorize, attempt := attempt, phase := .authorizing } := by
  obtain ⟨_, _, _, hpaused, hnone, he⟩ := Moves.pauseRequestDeadline_eq cfg s pause
  rw [he]
  exact of_waiting (h.fixed (inLoop_ne hp)) (fun ht => (hnone ht).trans (h.unlimited (inLoop_ne hp).2.2 ht)) h.attempts
    h.authentications (.inl rfl) ⟨hv, hpaused⟩ (by rintro ⟨⟩)

theorem retried {f : Failure} {attempt : Nat} (h : Clocks cfg s) (hp : s.phase.InLoop) :
    Clocks cfg { s with clock := now, attempt := attempt, phase := .attempting (some f) } :=
  of_loop (h.fixed (inLoop_ne hp)) (h.unlimited (inLoop_ne hp).2.2) h.attempts h.authentications (.inr ⟨some f, rfl⟩)
    { h.loop hp with }

theorem authenticated {token : Text} {resume enter : τ} (h : Clocks cfg s) (hp : s.phase = .authenticating)
    (hc : s.clock ≤ resume) : Clocks cfg (authenticated cfg s token resume enter) := by
  obtain ⟨hv, hpaused⟩ := h.paused (.inr hp)
  obtain ⟨r, hr, hle⟩ := h.asked hp
  unfold Attempts.authenticated
  extract_lets s₁
  obtain ⟨deadline, paused, hnone, hsome, he⟩ := Moves.resumeRequestDeadline_eq cfg s₁ resume
  have hlim := h.fixed (by simp [hp])
  have hd : deadline = cfg.timeout.map fun t => resume + max 0 t := by
    cases ht : cfg.timeout
    case none => exact (hnone ht).trans (h.unlimited (by simp [hp]) ht)
    case some t =>
      rw [hsome (hpaused.resolve_left (by simp [ht])) t ht]
      simp [s₁, ht]
  have hown : (enterRetryLoop cfg (resumeRequestDeadline cfg s₁ resume) s₁.authDeadline enter).ownDeadline =
      cfg.timeout.map fun t => resume + max 0 t := by
    simp only [enterRetryLoop, he, hd]
    cases cfg.timeout <;> rfl
  rw [he] at hown ⊢
  refine of_loop hlim (fun ht => hd.trans (by rw [ht]; rfl)) h.attempts h.authentications (.inr ⟨none, rfl⟩)
    ⟨rfl, fun _ => ⟨hown, ?_⟩, by simp [hv]⟩
  change s.authentications.getLast?.getD s.started ≤ resume
  rw [hr]
  exact hle.trans hc

theorem opened [IsOrderedAddMonoid τ] {clip : τ} (h : Clocks cfg s)
    (hp : s.phase = .attempting follows) (ht : timeLeft s.deadline now) (hc : now ≤ clip) :
    Clocks cfg (send cfg s follows now clip none) := by
  have hl : s.phase.InLoop := .inr ⟨follows, hp⟩
  have hloop := h.loop hl
  have hlimit : ∀ d, s.ownDeadline = some d ∨ s.authDeadline = some d →
      ∃ e, s.deadline = some e ∧ now < e ∧ e ≤ d := by
    intro d hd
    obtain ⟨e, he, hle⟩ := earlier_le hd
    rw [← hloop.deadline] at he
    exact ⟨e, he, by simpa [timeLeft, he] using ht, hle⟩
  refine of_loop (h.fixed (inLoop_ne hl)) (h.unlimited (inLoop_ne hl).2.2) (fun a ha => ?_) h.authentications (.inl rfl)
    { hloop with }
  rcases List.mem_append.mp ha with ha | ha
  case inl => exact h.attempts a ha
  rw [List.mem_singleton.mp ha]
  refine ⟨rfl, ⟨?_, ?_, ?_, hloop.fresh, hloop.plain⟩⟩
  case refine_1 =>
    intro d hd
    obtain ⟨e, _, hlt, hle⟩ := hlimit d hd
    exact hlt.trans_le hle
  case refine_2 =>
    intro d hd
    obtain ⟨e, he, hlt, hle⟩ := hlimit d hd
    obtain ⟨t, hn, htd⟩ := nativeTimeout_le_deadline cfg hlt hc
    exact ⟨t, by rw [he]; exact hn, htd.trans (sub_le_sub_right hle now)⟩
  case refine_3 => exact fun p hp hr => nativeTimeout_le_perRetry hp hr

theorem step [IsOrderedAddMonoid τ] {e : Event τ} (h : Clocks cfg s) (hs : step cfg s e = some s') : Clocks cfg s' := by
  cases Moves.of_step hs
  case ended hm hp => exact h.ended hm hp
  case submitted hp => exact h.submitted hp
  case entered hp hv => exact h.entered hp hv
  case authorizing hp hv => exact h.authorizing hp hv
  case authenticating hp _ ht => exact h.authenticating hp ht
  case repeating hp => exact h.repeating hp
  case authenticated hp hc => exact h.authenticated hp hc
  case refused hp hv _ => exact h.refused hp hv
  case retried hp _ _ _ => exact h.retried hp
  case opened hp ht hc => exact h.opened hp ht hc

end Clocks

-- A run of the retry loop makes at most `retries` attempts, or one, and goes on after retriable errors only. No
-- attempt is opened at or after a deadline that applies to it, and its timeout ends with them and is at most the
-- timeout of a single attempt, or zero. The request budget starts anew after each authentication, and the
-- authorization deadline is one for all attempts and all authentications.
theorem inBudget [IsOrderedAddMonoid τ] (h : Machine.Reaches (step cfg) Machine.anyEvent (initial cfg) s) :
    (∀ r, cfg.retries = some r → ∀ c, (s.opened.countP (·.cycle = c) : Int) ≤ max 1 r) ∧
    (s.opened.Pairwise fun a b => a.cycle = b.cycle → ∃ f, b.follows = some f ∧ f.isRetriable) ∧
    (∀ a ∈ s.opened, a.InBudget cfg s.submitted) ∧
    (cfg.provider = true →
      (∀ a ∈ s.opened, a.authDeadline = authorizationLimit cfg s.submitted s.started) ∧
      ∀ r ∈ s.authentications, timeLeft (authorizationLimit cfg s.submitted s.started) r) := by
  have hn : Counts cfg s := h.invariant (I := Counts cfg) (fun hi _ e => hi.step e) .initial
  have hc : Clocks cfg s := h.invariant (I := Clocks cfg) (fun hi _ e => hi.step e) .initial
  refine ⟨hn.bound, hn.follows, fun a ha => (hc.attempts a ha).2, fun hv => ?_⟩
  rcases hc.limit with ⟨ho, ha, _⟩ | ⟨_, _, hl⟩
  · simp [ho, ha]
  · rw [hv, if_pos rfl] at hl
    rw [← hl]
    exact ⟨fun a ha => (hc.attempts a ha).1, hc.authentications⟩

section

def sample (timeout authTimeout perRetryTimeout : Option Int) (provider : Bool) : Config Int where
  timeout := timeout
  authTimeout := authTimeout
  perRetryTimeout := perRetryTimeout
  retries := some 3
  authorizationApplies := some provider
  provider := provider
  caseMap := .ascii
  metadata := []
  newKey := fun _ => [0x6B]
  newKey_ne_nil := fun _ => List.cons_ne_nil _ _

def unavailable (now : Int) : Handling Int where
  failure := .request ⟨.unavailable, [], false, false⟩
  decide := now
  pause := now
  authorize := now
  expired := false
  cancelled := false
  canRetry := none

-- The authentication takes longer than the timeout of the request.
def slowAuthentication : List (Event Int) :=
  [.submit 0, .start 0 0 0, .authorize 1, .authenticated [0x74] 20 20, .attempt 21 21 none,
    .failed (unavailable 25), .attempt 26 26 none]

theorem slowAuthentication_inBudget :
    let cfg := sample (some 10) (some 60) (some 5) true
    ∃ s, Machine.run (step cfg) (initial cfg) slowAuthentication = some s ∧
      s.opened.map (·.reading) = [21, 26] ∧ s.opened.map (·.timeout) = [some 5, some 4] ∧
      ∀ a ∈ s.opened, a.InBudget cfg s.submitted :=
  ⟨_, rfl, rfl, rfl, (inBudget (.of_run (show Machine.run _ _ slowAuthentication = _ from rfl))).2.2.1⟩

-- The clock passes the deadline between the two readings. The timeout is then zero, which exceeds a negative
-- `per_retry_timeout`.
theorem negativePerRetry_exceeded :
    let cfg := sample (some 10) none (some (-1)) false
    ∃ s, Machine.run (step cfg) (initial cfg) [.submit 0, .start 0 0 0, .attempt 0 10 none] = some s ∧
      s.opened.map (·.timeout) = [some 0] :=
  ⟨_, rfl, rfl⟩

end

end Attempts

end Aio
