import PysdkModel.Aio.Operation
import PysdkModel.Lib.Entries

namespace Aio

variable {τ β : Type*} [LinearOrder τ] {v : Python}

theorem passed_mono {d : Option τ} {t t' : τ} (h : passed d t) (ht : t ≤ t') : passed d t' := by
  cases d with
  | none => cases h
  | some d => exact decide_eq_true (le_trans (of_decide_eq_true h) ht)

theorem Python.existsIn_waitForError (v : Python) : v.waitForError.existsIn v = true := by
  cases v <;> rfl

-- When a call may end in a way, given the stored message and the time. This says nothing of an update.
def Justified (v : Python) (m : OperationMessage β) (t : τ) : PollKind τ → PollOutcome → Prop
  | .wait _, .returned => m.status = some .ok
  | .wait _, .operationError => ∃ c, c ≠ .ok ∧ m.status = some c
  | .wait d, .timeoutError => passed d t
  | .wait _, .failed e => e.isIgnorable = false ∧ e.existsIn v = true
  | _, _ => True

namespace Justified

variable {m m' : OperationMessage β} {t t' : τ} {k : PollKind τ} {o : PollOutcome}

theorem later (h : Justified v m t k o) (ht : t ≤ t') : Justified v m t' k o := by
  cases k
  case update => exact trivial
  case wait d =>
    cases o
    case timeoutError => exact passed_mono h ht
    all_goals exact h

theorem stored (h : Justified v m t k o) (hm : m.status = none) : Justified v m' t k o := by
  cases k
  case update => exact trivial
  case wait d =>
    cases o
    case returned => cases hm.symm.trans h
    case operationError =>
      obtain ⟨c, _, hc⟩ := h
      cases hm.symm.trans hc
    all_goals exact h

theorem finish (h : m.status.isSome) : Justified v m t k m.finish := by
  cases k
  case update => exact trivial
  case wait d =>
    obtain ⟨c, hc⟩ := Option.isSome_iff_exists.mp h
    by_cases hok : c = .ok
    case pos =>
      subst hok
      simp [OperationMessage.finish, hc, Justified]
    have hf : m.finish = .operationError := by
      cases c <;> simp_all [OperationMessage.finish]
    rw [hf]
    exact ⟨c, hok, hc⟩

-- Only the `asyncio.TimeoutError` of Python 3.10 reaches the caller as another error.
theorem delivered (h : Justified v m t k o) :
    Poller.delivered k o = o ∨ v = .v310 ∧ Poller.delivered k o = .timeoutError := by
  unfold Poller.delivered
  split
  case h_1 => cases h.1
  case h_2 => exact .inr ⟨by simpa [PollError.existsIn] using h.2, rfl⟩
  case h_3 => exact .inl rfl

end Justified

structure Settled (v : Python) (m : OperationMessage β) (t : τ) (k : PollKind τ) (phase : PollPhase) : Prop where
  free : ∀ n, phase ≠ .requesting n
  ended : ∀ {o}, phase = .ended o → Justified v m t k o

namespace Settled

variable {m : OperationMessage β} {t t₁ t₂ : τ} {k : PollKind τ} {d : Option τ}

theorem of_justified {o : PollOutcome} (h : Justified v m t k o) : Settled v m t k (.ended o) where
  free := fun _ h => by cases h
  ended := fun he => by cases he; exact h

theorem acquiring : Settled v m t k .acquiring where
  free := fun _ h => by cases h
  ended := fun h => by cases h

theorem sleeping : Settled v m t k .sleeping where
  free := fun _ h => by cases h
  ended := fun h => by cases h

theorem loopHead : Settled v m t (.wait d) (Poller.loopHead m d t) := by
  unfold Poller.loopHead
  split
  case isTrue h => exact of_justified (.finish h)
  split
  case isTrue h => exact of_justified h
  case isFalse => exact sleeping

theorem safeUpdate (ht : t₁ ≤ t) : Settled v m t (.wait d) (Poller.safeUpdate d t₁) := by
  unfold Poller.safeUpdate
  split
  case isTrue h => exact of_justified (passed_mono h ht)
  case isFalse => exact acquiring

theorem afterUpdate {error : Option PollError} (ht : t₁ ≤ t₂) (hv : ∀ {e}, error = some e → e.existsIn v = true) :
    Settled v m t₂ k (Poller.afterUpdate m k error t₁ t₂) := by
  unfold Poller.afterUpdate
  split
  case h_1 => exact of_justified trivial
  case h_2 => exact of_justified trivial
  case h_3 => exact loopHead
  case h_4 =>
    split
    case isTrue h => exact of_justified (passed_mono h ht)
    split
    case isTrue => exact loopHead
    case isFalse h => exact of_justified ⟨Bool.eq_false_iff.mpr h, hv rfl⟩

end Settled

structure Poller.Ok (v : Python) (m : OperationMessage β) (t : τ) (p : Poller τ) : Prop where
  ended : ∀ {o}, p.phase = .ended o → Justified v m t p.kind o
  outer : ∀ {o}, p.outer = some o → Justified v m t p.kind o ∨ v = .v310 ∧ o = .timeoutError
  failed : ∀ {e}, p.outer = some (.failed e) → p.phase = .ended (.failed e)

namespace Poller.Ok

variable {m m' : OperationMessage β} {t t' : τ} {p : Poller τ} {phase : PollPhase}

theorem later (h : p.Ok v m t) (ht : t ≤ t') : p.Ok v m t' where
  __ := h
  ended := fun he => (h.ended he).later ht
  outer := fun ho => (h.outer ho).imp_left (.later · ht)

theorem stored (h : p.Ok v m t) (hm : m.status = none) : p.Ok v m' t where
  __ := h
  ended := fun he => (h.ended he).stored hm
  outer := fun ho => (h.outer ho).imp_left (.stored · hm)

theorem goOn (h : p.Ok v m t) (he : ∀ o, p.phase ≠ .ended o) (hs : ∀ {o}, phase = .ended o → Justified v m t p.kind o) :
    Ok v m t { p with phase := phase } where
  __ := h
  ended := hs
  failed := fun ho => absurd (h.failed ho) (he _)

theorem caller {o : PollOutcome} (h : p.Ok v m t) (ho : Justified v m t p.kind o ∨ v = .v310 ∧ o = .timeoutError)
    (hf : ∀ {e}, o = .failed e → p.phase = .ended (.failed e)) : Ok v m t { p with outer := some o } where
  __ := h
  outer := fun he => by cases he; exact ho
  failed := fun he => hf (Option.some.inj he)

end Poller.Ok

namespace OperationState

variable {s s' : OperationState τ β} {e : OperationEvent τ β}

inductive Moves (v : Python) (s : OperationState τ β) : OperationState τ β → Prop
  | call {p : Poller τ} (hs : p.phase = .starting ∨ Settled v s.stored s.now p.kind p.phase)
      (ho : ∀ {o}, p.outer = some o → p.phase = .ended o) :
      Moves v s { s with pollers := s.pollers ++ [p] }
  -- The coroutine of a call goes on without the lock.
  | goOn {i : Nat} {p : Poller τ} {phase : PollPhase} {t : τ} (hp : s.pollers[i]? = some p) (ht : s.now ≤ t)
      (hf : ∀ n, p.phase ≠ .requesting n) (he : ∀ o, p.phase ≠ .ended o) (hs : Settled v s.stored t p.kind phase) :
      Moves v s { s.setPhase i p phase with now := t }
  | request {i : Nat} {p : Poller τ} {t : τ} (hp : s.pollers[i]? = some p) (ht : s.now ≤ t)
      (ha : p.phase = .acquiring) (hh : s.holder = none) (hd : s.stored.status = none) :
      Moves v s { s.setPhase i p (.requesting s.requests.length) with
        requests := s.requests ++ [.pending]
        holder := some i
        now := t }
  | store {i n : Nat} {p : Poller τ} {phase : PollPhase} {m : OperationMessage β} {t : τ}
      (hp : s.pollers[i]? = some p) (ht : s.now ≤ t) (hr : p.phase = .requesting n)
      (hs : Settled v m t p.kind phase) :
      Moves v s { (s.setPhase i p phase).endRequest n .answered with stored := m, source := some n, now := t }
  | release {i n : Nat} {p : Poller τ} {phase : PollPhase} {r : GetState} {t : τ}
      (hp : s.pollers[i]? = some p) (ht : s.now ≤ t) (hr : p.phase = .requesting n)
      (hs : Settled v s.stored t p.kind phase) :
      Moves v s { (s.setPhase i p phase).endRequest n r with now := t }
  | caller {i : Nat} {p : Poller τ} {o : PollOutcome} {t : τ} (hp : s.pollers[i]? = some p) (ht : s.now ≤ t)
      (hn : p.outer = none)
      (ho : (∃ o', p.phase = .ended o' ∧ o = Poller.delivered p.kind o') ∨
        (∀ e, o ≠ .failed e) ∧ Justified v s.stored t p.kind o) :
      Moves v s { s with pollers := s.pollers.set i { p with outer := some o }, now := t }

theorem onLoop_eq_some {i : Nat} {t₁ t₂ : τ} {f : OperationState τ β → Poller τ → Option (OperationState τ β)}
    (h : s.onLoop i t₁ t₂ f = some s') :
    ∃ p, s.pollers[i]? = some p ∧ s.now ≤ t₂ ∧ t₁ ≤ t₂ ∧ f { s with now := t₂ } p = some s' := by
  unfold onLoop at h
  split at h
  case h_2 => cases h
  case h_1 p hp =>
    split at h
    case isFalse => cases h
    case isTrue ht => exact ⟨p, hp, le_trans ht.1 ht.2, ht.2, h⟩

theorem step_moves (h : s.step v e = some s') : s.Moves v s' := by
  cases e <;> simp only [step] at h
  case call kind =>
    cases h
    refine .call ?_ ?_
    · split
      case isTrue hd =>
        right
        split
        case h_1 => exact .of_justified trivial
        case h_2 => exact .of_justified (.finish hd)
      case isFalse => exact .inl rfl
    · split
      · split <;> exact fun ho => congrArg _ (Option.some.inj ho)
      · exact fun ho => by cases ho
  case begin i t₁ t₂ =>
    obtain ⟨p, hp, ht, h₂, h⟩ := onLoop_eq_some h
    split at h
    case h_1 hph hk =>
      cases h
      exact .goOn hp ht (by simp [hph]) (by simp [hph]) .acquiring
    case h_2 d hph hk =>
      cases h
      refine .goOn hp ht (by simp [hph]) (by simp [hph]) ?_
      rw [hk]
      split
      case isTrue hd => exact .of_justified (.finish hd)
      case isFalse => exact .safeUpdate h₂
    case h_3 => cases h
  case acquire i t₁ t₂ refused =>
    obtain ⟨p, hp, ht, h₂, h⟩ := onLoop_eq_some h
    split at h
    case h_2 => cases h
    case h_1 hph hh =>
      have hgo {error : Option PollError} (hv : ∀ {e}, error = some e → e.existsIn v = true) :
          s.Moves v { s.setPhase i p (Poller.afterUpdate s.stored p.kind error t₁ t₂) with now := t₂ } :=
        .goOn hp ht (by simp [hph]) (by simp [hph]) (.afterUpdate h₂ hv)
      split at h
      case isTrue => cases h; exact hgo (by simp)
      case isFalse hd =>
        split at h
        case isTrue => cases h; exact hgo (by simp [PollError.existsIn])
        split at h
        case h_1 e =>
          split at h
          case isFalse => cases h
          case isTrue hv => cases h; exact hgo (by simp [hv])
        case h_2 =>
          cases h
          exact .request hp ht hph hh (by simpa [isDone] using hd)
  case respond i t₁ t₂ m =>
    obtain ⟨p, hp, ht, h₂, h⟩ := onLoop_eq_some h
    split at h
    case h_2 => cases h
    case h_1 n hph =>
      split at h
      case isTrue =>
        cases h
        exact .store hp ht hph (.afterUpdate h₂ (by simp))
      cases h
      exact .release hp ht hph (.afterUpdate h₂ (by simp [PollError.existsIn]))
  case fail i t₁ t₂ e =>
    obtain ⟨p, hp, ht, h₂, h⟩ := onLoop_eq_some h
    split at h
    case h_2 => cases h
    case h_1 n hph =>
      split at h
      case isFalse => cases h
      case isTrue hv =>
        cases h
        exact .release hp ht hph (.afterUpdate h₂ (by simp [hv]))
  case expire i t₁ t₂ =>
    obtain ⟨p, hp, ht, h₂, h⟩ := onLoop_eq_some h
    split at h
    case h_3 => cases h
    case h_1 hph _ =>
      cases h
      exact .goOn hp ht (by simp [hph]) (by simp [hph]) (.afterUpdate h₂ (by simp [v.existsIn_waitForError]))
    case h_2 n hph _ =>
      cases h
      exact .release hp ht hph (.afterUpdate h₂ (by simp [v.existsIn_waitForError]))
  case wake i t₁ t₂ =>
    obtain ⟨p, hp, ht, h₂, h⟩ := onLoop_eq_some h
    split at h
    case h_2 => cases h
    case h_1 d hph hk =>
      cases h
      refine .goOn hp ht (by simp [hph]) (by simp [hph]) ?_
      rw [hk]
      split
      case isTrue hd => exact .of_justified (passed_mono hd h₂)
      case isFalse => exact .safeUpdate le_rfl
  case cancel i =>
    have hcancelled {k : PollKind τ} : Settled v s.stored s.now k (.ended .cancelled) := by
      refine .of_justified ?_
      cases k <;> exact trivial
    split at h
    case h_2 => cases h
    case h_1 p hp =>
      split at h
      case h_1 => cases h
      case h_2 n hph =>
        cases h
        exact .release hp le_rfl hph hcancelled
      case h_3 hne hnr =>
        cases h
        exact .goOn hp le_rfl hnr hne hcancelled
  case deliver i =>
    split at h
    case h_2 => cases h
    case h_1 p hp =>
      split at h
      case h_2 => cases h
      case h_1 o hph hn =>
        cases h
        exact .caller hp le_rfl hn (.inl ⟨o, hph, rfl⟩)
  case callerExpire i t =>
    split at h
    case h_2 => cases h
    case h_1 p hp =>
      split at h
      case h_3 => cases h
      case h_1 hn hk =>
        cases h
        refine .caller hp le_rfl hn (.inr ⟨by simp, ?_⟩)
        rw [hk]
        exact trivial
      case h_2 d hn hk =>
        split at h
        case isFalse => cases h
        case isTrue ht =>
          cases h
          refine .caller hp ht.1 hn (.inr ⟨by simp, ?_⟩)
          rw [hk]
          exact ht.2
  case callerCancel i =>
    split at h
    case h_2 => cases h
    case h_1 p hp =>
      split at h
      case h_2 => cases h
      case h_1 hn =>
        cases h
        refine .caller hp le_rfl hn (.inr ⟨by simp, ?_⟩)
        cases p.kind <;> exact trivial

structure Inv (v : Python) (s : OperationState τ β) : Prop where
  -- Whoever waits for a response has the lock, and the operation is not done.
  requesting : ∀ {i n : Nat} {p}, s.pollers[i]? = some p → p.phase = .requesting n →
    s.holder = some i ∧ s.stored.status = none ∧ s.requests[n]? = some .pending
  source : ∀ {n : Nat}, s.source = some n → s.requests[n]? = some .answered
  pollers : ∀ {i : Nat} {p}, s.pollers[i]? = some p → p.Ok v s.stored s.now

theorem Moves.requests (h : s.Moves v s') (hi : s.Inv v) {n : Nat} {r : GetState} (hr : s.requests[n]? = some r)
    (hp : r ≠ .pending) : s'.requests[n]? = some r := by
  have hset {i k : Nat} {p : Poller τ} {r' : GetState} (hpi : s.pollers[i]? = some p)
      (hph : p.phase = .requesting k) : (s.requests.set k r')[n]? = some r := by
    have hk := (hi.requesting hpi hph).2.2
    rw [List.getElem?_set_ne, hr]
    rintro rfl
    exact hp (Option.some.inj (hr.symm.trans hk))
  cases h
  case request => exact List.getElem?_concat_of_some hr
  case store hp' _ hph _ => exact hset hp' hph
  case release hp' _ hph _ => exact hset hp' hph
  all_goals exact hr

namespace Inv

theorem initial (m : OperationMessage β) (t : τ) : Inv v (OperationState.initial m t) where
  requesting := fun h => by cases h
  source := fun h => by cases h
  pollers := fun h => by cases h

theorem requesting_unique (hi : Inv v s) {i j n k : Nat} {p q : Poller τ} (hp : s.pollers[i]? = some p)
    (hn : p.phase = .requesting n) (hq : s.pollers[j]? = some q) (hk : q.phase = .requesting k) : i = j :=
  Option.some.inj ((hi.requesting hp hn).1.symm.trans (hi.requesting hq hk).1)

theorem moves (hi : Inv v s) (h : s.Moves v s') : Inv v s' := by
  have hsource {n : Nat} (hn : s.source = some n) : s'.requests[n]? = some .answered :=
    h.requests hi (hi.source hn) (by simp)
  cases h
  case call p hs ho =>
    have hended {o : PollOutcome} (he : p.phase = .ended o) : Justified v s.stored s.now p.kind o := by
      rcases hs with hs | hs
      · cases hs.symm.trans he
      · exact hs.ended he
    refine ⟨fun hq hph => ?_, hsource, fun hq => ?_⟩
    · rcases List.getElem?_concat_cases hq with hq | ⟨_, rfl⟩
      · exact hi.requesting hq hph
      · rcases hs with hs | hs
        · cases hs.symm.trans hph
        · exact absurd hph (hs.free _)
    · rcases List.getElem?_concat_cases hq with hq | ⟨_, rfl⟩
      · exact hi.pollers hq
      · exact ⟨hended, fun he => .inl (hended (ho he)), ho⟩
  case goOn i p phase t hp ht hf he hs =>
    refine ⟨fun hq hph => ?_, hsource, fun hq => ?_⟩
    · rcases List.getElem?_set_cases hq with ⟨_, rfl⟩ | ⟨_, hq⟩
      · exact absurd hph (hs.free _)
      · exact hi.requesting hq hph
    · exact List.forall_getElem?_set (((hi.pollers hp).later ht).goOn he hs.ended)
        (fun hq => (hi.pollers hq).later ht) hq
  case request i p t hp ht ha hh hd =>
    refine ⟨fun hq hph => ?_, hsource, fun hq => ?_⟩
    · rcases List.getElem?_set_cases hq with ⟨rfl, rfl⟩ | ⟨_, hq⟩
      · cases hph
        exact ⟨rfl, hd, by simp⟩
      · cases hh.symm.trans (hi.requesting hq hph).1
    · exact List.forall_getElem?_set (((hi.pollers hp).later ht).goOn (by simp [ha]) (fun h => by cases h))
        (fun hq => (hi.pollers hq).later ht) hq
  case store i n p phase m t hp ht hr hs =>
    obtain ⟨_, hd, hpend⟩ := hi.requesting hp hr
    refine ⟨fun hq hph => ?_, fun hn => ?_, fun hq => ?_⟩
    · rcases List.getElem?_set_cases hq with ⟨_, rfl⟩ | ⟨hne, hq⟩
      · exact absurd hph (hs.free _)
      · exact absurd (hi.requesting_unique hq hph hp hr) hne
    · cases hn
      exact List.getElem?_set_of_some hpend
    · exact List.forall_getElem?_set ((((hi.pollers hp).later ht).stored hd).goOn (by simp [hr]) hs.ended)
        (fun hq => ((hi.pollers hq).later ht).stored hd) hq
  case release i n p phase r t hp ht hr hs =>
    refine ⟨fun hq hph => ?_, hsource, fun hq => ?_⟩
    · rcases List.getElem?_set_cases hq with ⟨_, rfl⟩ | ⟨hne, hq⟩
      · exact absurd hph (hs.free _)
      · exact absurd (hi.requesting_unique hq hph hp hr) hne
    · exact List.forall_getElem?_set (((hi.pollers hp).later ht).goOn (by simp [hr]) hs.ended)
        (fun hq => (hi.pollers hq).later ht) hq
  case caller i p o t hp ht hn ho =>
    have hok := (hi.pollers hp).later ht
    refine ⟨fun hq hph => ?_, hsource, fun hq => ?_⟩
    · rcases List.getElem?_set_cases hq with ⟨rfl, rfl⟩ | ⟨_, hq⟩
      · exact hi.requesting hp hph
      · exact hi.requesting hq hph
    · refine List.forall_getElem?_set ?_ (fun hq => (hi.pollers hq).later ht) hq
      rcases ho with ⟨o', he, rfl⟩ | ⟨hne, hj⟩
      · rcases (hok.ended he).delivered with hd | ⟨hv, hd⟩ <;> rw [hd]
        · exact hok.caller (.inl (hok.ended he)) (fun hf => hf ▸ he)
        · exact hok.caller (.inr ⟨hv, rfl⟩) (fun hf => by cases hf)
      · exact hok.caller (.inl hj) (fun hf => absurd hf (hne _))

theorem reaches (hi : Inv v s) (h : Machine.Reaches (step v) Machine.anyEvent s s') : Inv v s' :=
  h.invariant (I := Inv v) (fun hi _ e => hi.moves (step_moves e)) hi

end Inv

theorem Moves.frozen (h : s.Moves v s') (hi : s.Inv v) (hd : s.stored.status ≠ none) :
    s'.stored = s.stored ∧ s'.requests.length = s.requests.length := by
  cases h
  case request _ _ _ hn => exact absurd hn hd
  case store hp _ hr _ => exact absurd (hi.requesting hp hr).2.1 hd
  case release hp _ hr _ => exact absurd (hi.requesting hp hr).2.1 hd
  all_goals exact ⟨rfl, rfl⟩

inductive Raises (v : Python) (s : OperationState τ β) (i : Nat) (t : τ) : PollError → OperationEvent τ β → Prop
  | failed {t₂ : τ} {e : PollError} : Raises v s i t e (.fail i t t₂ e)
  | refused {t₂ : τ} {e : PollError} (h : s.stored.status = none) : Raises v s i t e (.acquire i t t₂ (some e))
  | unsupported {t₂ : τ} {m : OperationMessage β} (h : m.type ≠ s.stored.type) :
    Raises v s i t .unsupported (.respond i t t₂ m)
  | expired {t₂ : τ} : Raises v s i t v.waitForError (.expire i t t₂)

structure Settles (v : Python) (s : OperationState τ β) : Prop where
  frozen : s.stored.status ≠ none → ∀ {s'}, Machine.Reaches (step v) Machine.anyEvent s s' →
    s'.stored = s.stored ∧ s'.requests.length = s.requests.length
  dropped : ∀ {n : Nat}, s.requests[n]? = some .cancelled →
    ∀ {s'}, Machine.Reaches (step v) Machine.anyEvent s s' → s'.source ≠ some n
  returned : ∀ {i : Nat} {p d}, s.pollers[i]? = some p → p.kind = .wait d → p.outer = some .returned →
    s.stored.status = some .ok
  operationError : ∀ {i : Nat} {p d}, s.pollers[i]? = some p → p.kind = .wait d → p.outer = some .operationError →
    ∃ c, c ≠ .ok ∧ s.stored.status = some c
  timeoutError : v = .v311 → ∀ {i : Nat} {p d}, s.pollers[i]? = some p → p.kind = .wait d →
    p.outer = some .timeoutError → passed d s.now
  -- The caller gets an error of an update only if the coroutine ended with it, and that happens only to an error that
  -- is not transient, before the deadline.
  failed : ∀ {i : Nat} {p d e}, s.pollers[i]? = some p → p.kind = .wait d → p.outer = some (.failed e) →
    p.phase = .ended (.failed e)
  raised : ∀ {i : Nat} {p d e t ev s'}, s.pollers[i]? = some p → p.kind = .wait d → s.Raises v i t e ev →
    s.step v ev = some s' → ∃ p', s'.pollers[i]? = some p' ∧
      (p'.phase = .ended (.failed e) ↔ e.isIgnorable = false ∧ passed d t = false) ∧
      (v = .v311 → e.isIgnorable = e.isTransient)

theorem finish_ne_failed (m : OperationMessage β) (e : PollError) : m.finish ≠ .failed e := by
  unfold OperationMessage.finish
  split <;> simp

theorem loopHead_ne_failed (m : OperationMessage β) (d : Option τ) (t : τ) (e : PollError) :
    Poller.loopHead m d t ≠ .ended (.failed e) := by
  unfold Poller.loopHead
  split
  · simp [finish_ne_failed]
  · split <;> simp

theorem afterUpdate_eq_failed_iff {m : OperationMessage β} {d : Option τ} {t₁ t₂ : τ} {e : PollError} :
    Poller.afterUpdate m (.wait d) (some e) t₁ t₂ = .ended (.failed e) ↔
      e.isIgnorable = false ∧ passed d t₁ = false := by
  simp only [Poller.afterUpdate]
  split
  case isTrue h => simp [h]
  case isFalse h =>
    split
    case isTrue hi => simp [hi, loopHead_ne_failed]
    case isFalse hi => simp [h, hi]

theorem step_of_raises {i : Nat} {p : Poller τ} {d : Option τ} {e : PollError} {t : τ} {ev : OperationEvent τ β}
    (hp : s.pollers[i]? = some p) (hk : p.kind = .wait d) (hr : s.Raises v i t e ev) (h : s.step v ev = some s') :
    ∃ p' t₂, s'.pollers[i]? = some p' ∧ p'.phase = Poller.afterUpdate s.stored (.wait d) (some e) t t₂ ∧
      e.existsIn v = true := by
  have hset {t₂ : τ} (hv : e.existsIn v = true) : ∃ p' t₂', (s.pollers.set i { p with
      phase := Poller.afterUpdate s.stored p.kind (some e) t t₂ })[i]? = some p' ∧
      p'.phase = Poller.afterUpdate s.stored (.wait d) (some e) t t₂' ∧ e.existsIn v = true :=
    ⟨_, t₂, List.getElem?_set_of_some hp, by rw [hk], hv⟩
  cases hr <;> simp only [step] at h
  case failed t₂ =>
    obtain ⟨q, hq, _, _, h⟩ := onLoop_eq_some h
    cases hp.symm.trans hq
    split at h
    case h_2 => cases h
    case h_1 =>
      obtain ⟨hv, h⟩ := Option.ite_none_right_eq_some.mp h
      cases h
      exact hset hv
  case refused t₂ hd =>
    obtain ⟨q, hq, _, _, h⟩ := onLoop_eq_some h
    cases hp.symm.trans hq
    split at h
    case h_2 => cases h
    case h_1 =>
      rw [if_neg (by simp [isDone, hd]), if_neg (by simp [Poller.isLate, hk])] at h
      obtain ⟨hv, h⟩ := Option.ite_none_right_eq_some.mp h
      cases h
      exact hset hv
  case unsupported t₂ m hm =>
    obtain ⟨q, hq, _, _, h⟩ := onLoop_eq_some h
    cases hp.symm.trans hq
    split at h
    case h_2 => cases h
    case h_1 =>
      rw [if_neg hm] at h
      cases h
      exact hset (by simp [PollError.existsIn])
  case expired t₂ =>
    obtain ⟨q, hq, _, _, h⟩ := onLoop_eq_some h
    cases hp.symm.trans hq
    split at h
    case h_3 => cases h
    all_goals cases h; exact hset v.existsIn_waitForError

-- Every run of concurrent updates and waits settles. What the caller of a wait gets for a timeout is only right if
-- there is one class of timeouts.
theorem settles {m : OperationMessage β} {t : τ}
    (h : Machine.Reaches (step v) Machine.anyEvent (OperationState.initial m t) s) : s.Settles v := by
  have hi := (Inv.initial (v := v) m t).reaches h
  have hj {i : Nat} {p : Poller τ} {d : Option τ} {o : PollOutcome} (hp : s.pollers[i]? = some p)
      (hk : p.kind = .wait d) (ho : p.outer = some o) (ht : v = .v310 → o ≠ .timeoutError) :
      Justified v s.stored s.now (.wait d) o :=
    hk ▸ ((hi.pollers hp).outer ho).resolve_right fun hv => ht hv.1 hv.2
  constructor
  case frozen =>
    intro hd s' hr
    refine (hr.invariant (I := fun u => u.Inv v ∧ u.stored = s.stored ∧ u.requests.length = s.requests.length)
      (fun hu _ e => ?_) ⟨hi, rfl, rfl⟩).2
    obtain ⟨hs, hl⟩ := (step_moves e).frozen hu.1 (hu.2.1 ▸ hd)
    exact ⟨hu.1.moves (step_moves e), hs.trans hu.2.1, hl.trans hu.2.2⟩
  case dropped =>
    intro n hn s' hr hs
    have hu := hr.invariant (I := fun u => u.Inv v ∧ u.requests[n]? = some .cancelled)
      (fun hu _ e => ⟨hu.1.moves (step_moves e), (step_moves e).requests hu.1 hu.2 (by simp)⟩) ⟨hi, hn⟩
    cases (hu.1.source hs).symm.trans hu.2
  case returned => exact fun hp hk ho => hj hp hk ho (by simp)
  case operationError => exact fun hp hk ho => hj hp hk ho (by simp)
  case timeoutError => exact fun hv _ _ _ hp hk ho => hj hp hk ho (by simp [hv])
  case failed => exact fun hp _ ho => (hi.pollers hp).failed ho
  case raised =>
    intro i p d e t ev s' hp hk hr h
    obtain ⟨p', t₂, hp', hph, hv⟩ := step_of_raises hp hk hr h
    refine ⟨p', hp', by rw [hph]; exact afterUpdate_eq_failed_iff, fun h311 => ?_⟩
    cases e <;> first | rfl | simp [PollError.existsIn, h311] at hv

def polling : OperationState Nat Unit where
  stored := ⟨.v1, (), none⟩
  source := none
  holder := some 0
  requests := [.pending]
  pollers := [⟨.wait (some 5), .requesting 0, none⟩]
  now := 1

def unfinished : OperationState Nat Unit := .initial ⟨.v1, (), none⟩ 0

def toPolling : List (OperationEvent Nat Unit) := [.call (.wait (some 5)), .begin 0 1 1, .acquire 0 1 1 none]

theorem polling_settles : polling.Settles .v311 :=
  settles <| .of_run (show Machine.run _ unfinished toPolling = _ from rfl)

-- The request fails with an `asyncio.TimeoutError` at the time 2, because its authentication has timed out. Under
-- Python 3.10 the coroutine of the wait ends with this error, and the caller is told that the wait has timed out. Under
-- every version the overall deadline goes before an error that arrives after it.
theorem polling_timeout_classes :
    (∃ s', Machine.run (step .v310) unfinished (toPolling ++ [.fail 0 2 2 .asyncTimeout, .deliver 0]) = some s' ∧
      s'.pollers[0]? = some ⟨.wait (some 5), .ended (.failed .asyncTimeout), some .timeoutError⟩ ∧
      PollError.asyncTimeout.isTransient = true ∧ passed (some 5) s'.now = false) ∧
    ∀ v, ∃ s' p', Machine.run (step v) unfinished (toPolling ++ [.fail 0 6 6 (.service .permissionDenied)]) = some s' ∧
      s'.pollers[0]? = some p' ∧ (PollError.service .permissionDenied).isTransient = false ∧
      p'.phase = .ended .timeoutError := by
  refine ⟨⟨_, rfl, rfl, rfl, rfl⟩, fun v => ?_⟩
  cases v <;> exact ⟨_, _, rfl, rfl, rfl, rfl⟩

end OperationState

end Aio
