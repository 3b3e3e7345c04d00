import PysdkModel.Aio.Submission

-- A submission keeps one account of its awaitable: it is undecided, or some closure owes its disposal, or it
-- was disposed, or it was started. Every event moves it along this account and never back.

namespace Aio

namespace Submission

variable {ρ : Type} {s t : Submission ρ}

def undecided (s : Submission ρ) : Nat := (s.work && !s.started).toNat

def owed (s : Submission ρ) : Nat :=
  (match s.submitter with | .withdrawing | .disposing => 1 | _ => 0) +
  (match s.dispatch with | .skipping | .dropping _ => 1 | _ => 0) +
  (match s.copier with | .disposing => 1 | _ => 0) +
  (match s.forwarder with | .disposing => 1 | _ => 0)

def DispatchOk (s : Submission ρ) : Prop :=
  match s.dispatch with
  | .unscheduled =>
    s.submitter ≠ .returned ∧ s.runner = .absent ∧ s.task = false ∧ s.startClaimed = false ∧ s.started = false
  | .queued =>
    s.submitter = .returned ∧ s.runner = .absent ∧ s.task = false ∧ s.startClaimed = false ∧ s.started = false
  | .skipping | .skipped =>
    s.submitter = .returned ∧ s.runner = .absent ∧ s.task = false ∧ s.startClaimed = false ∧
    s.started = false ∧ s.disposed = true
  | .creating =>
    s.submitter = .returned ∧ s.runner = .absent ∧ s.task = false ∧ s.startClaimed = true ∧
    s.started = false ∧ s.disposed = false
  | .failing _ =>
    s.submitter = .returned ∧ s.runner = .closed ∧ s.task = false ∧ s.startClaimed = true ∧ s.disposed = false
  | .dropping _ | .reporting _ | .failed _ =>
    s.submitter = .returned ∧ s.runner = .closed ∧ s.task = false ∧ s.startClaimed = false ∧
    (s.started = true ∨ s.disposed = true)
  | .binding =>
    s.submitter = .returned ∧ s.runner ≠ .absent ∧ s.runner ≠ .closed ∧ s.task = false ∧
    s.startClaimed = true ∧ s.disposed = false
  | .bound =>
    s.submitter = .returned ∧ s.runner ≠ .absent ∧ s.runner ≠ .closed ∧ s.startClaimed = false

def CopierOk (s : Submission ρ) : Prop :=
  match s.copier with
  | .waiting => s.dispatch = .bound → s.task = true ∧ s.disposed = false
  | .disposing =>
    s.dispatch = .bound ∧ (∃ e, s.runner = .done e) ∧ s.task = false ∧ s.disposed = true
  | .publishing | .finished =>
    s.dispatch = .bound ∧ (∃ e, s.runner = .done e) ∧ s.task = false ∧ (s.started = true ∨ s.disposed = true)

def SubmitterOk (s : Submission ρ) : Prop :=
  match s.submitter with
  | .admitting => s.handle = .absent ∧ s.disposed = false
  | .scheduling | .refused => s.handle = .pending ∧ s.disposed = false
  | .withdrawing => s.handle = .pending ∧ s.disposed = true
  | .disposing | .raised =>
    s.work = false ∧ (s.handle = .absent ∨ (s.handle = .completed .cancelled ∧ s.disposed = true))
  | .returned => s.handle ≠ .absent

def RunnerOk (s : Submission ρ) : Prop :=
  match s.runner with
  | .ready => s.started = false
  | .suspended => s.started = true
  | .done e => s.started = true ∨ e = .cancelled
  | .absent | .closed => True

structure Sound (s : Submission ρ) : Prop where
  conserved : s.starts + s.disposals + s.owed + s.undecided = 1
  starts : s.starts = s.started.toNat
  faultless : s.faulted = false
  submitter : s.SubmitterOk
  dispatch : s.DispatchOk
  runner : s.RunnerOk
  copier : s.CopierOk
  work : s.disposed = false → s.copier = .waiting → s.submitter ≠ .disposing → s.submitter ≠ .raised →
    s.work = true
  popped : s.disposed = true → s.work = false
  skipped : s.dispatch = .skipping ∨ s.dispatch = .skipped ∨ (s.dispatch = .queued ∧ s.disposed = true) →
    s.handle = .completed .cancelled
  completed : s.copier = .finished ∨ (∃ error, s.dispatch = .failed error) → ∃ e, s.handle = .completed e
  forwarder : s.forwarder = .waiting ↔ ∀ e, s.handle ≠ .completed e
  outcome : ∀ e, s.handle = .completed e → (s.cancelAccepted = true ∧ e = .cancelled) ∨ s.ending = some e

theorem initial_sound : Sound (initial : Submission ρ) := by
  constructor <;> simp [initial, owed, undecided, SubmitterOk, DispatchOk, RunnerOk, CopierOk]

theorem cancelled_of_isCancelled (h : s.handle.isCancelled = true) : s.handle = .completed .cancelled := by
  cases hh : s.handle with
  | completed e => cases e <;> simp_all [Handle.isCancelled, Ending.isCancelled]
  | _ => simp [hh, Handle.isCancelled] at h

variable {e : Ending ρ} {error : ρ} {c : Creation ρ} {a : Event ρ}

theorem complete_eq_self {e' : Ending ρ} (h : s.handle = .completed e) : s.complete e' = s := by
  simp [complete, h]

attribute [local simp] undecided owed SubmitterOk DispatchOk RunnerOk CopierOk popWork dispose enterRun Submission.step
  Submission.accept Submission.schedule Submission.createTask remaining

theorem complete_of_pending (h : s.handle = .pending) :
    s.complete e = { s with handle := .completed e, forwarder := .called } := by
  simp [complete, h]

namespace Sound

theorem dispatch_unscheduled (h : Sound s) (hs : s.submitter ≠ .returned) : s.dispatch = .unscheduled := by
  have hd := h.dispatch
  cases hd' : s.dispatch <;> simp_all

theorem copier_waiting (h : Sound s) (hd : s.dispatch ≠ .bound) : s.copier = .waiting := by
  have hc := h.copier
  cases hc' : s.copier <;> simp_all

section Submitter

variable (h : Sound s)

include h

theorem accept (hs : s.submitter = .admitting) (b : Bool) : Sound (s.accept b) := by
  have hd := h.dispatch_unscheduled (by simp [hs])
  have hc := h.copier_waiting (by simp [hd])
  have hst := h.dispatch
  simp only [DispatchOk, hd] at hst
  have hh := h.submitter
  simp only [SubmitterOk, hs] at hh
  cases b
  case true =>
    exact { h with
      conserved := by simpa [hs] using h.conserved
      submitter := ⟨rfl, hh.2⟩
      dispatch := by simp [hd, hst]
      work := fun hp hc _ _ => h.work hp hc (by simp [hs]) (by simp [hs])
      skipped := by simp [hd]
      completed := by simp [hc, hd]
      forwarder := by simpa [hh.1] using h.forwarder
      outcome := by simp }
  case false =>
    exact { h with
      conserved := by
        have hw := h.work hh.2 hc (by simp [hs]) (by simp [hs])
        have h₁ := h.conserved
        simp [hs, hw, hst] at h₁ ⊢
        omega
      submitter := ⟨rfl, .inl hh.1⟩
      dispatch := by simp [hd, hst]
      work := by simp
      popped := fun _ => rfl
      outcome := by simp [hh.1] }

theorem schedule (hs : s.submitter = .scheduling) (b : Bool) : Sound (s.schedule b) := by
  have hd := h.dispatch_unscheduled (by simp [hs])
  have hc := h.copier_waiting (by simp [hd])
  have hst := h.dispatch
  simp only [DispatchOk, hd] at hst
  have hh := h.submitter
  simp only [SubmitterOk, hs] at hh
  cases b
  case true =>
    exact { h with
      conserved := by simpa [hs, hd] using h.conserved
      submitter := by simp [hh]
      dispatch := by simp [hst]
      copier := by simp [hc]
      work := fun hp hc _ _ => h.work hp hc (by simp [hs]) (by simp [hs])
      skipped := by simp [hh]
      completed := by simp [hc]
      outcome := by simp [hh] }
  case false =>
    exact { h with
      conserved := by simpa [hs] using h.conserved
      submitter := hh
      dispatch := by simp [hd, hst]
      work := fun hp hc _ _ => h.work hp hc (by simp [hs]) (by simp [hs])
      outcome := by simp [hh] }

theorem withdraw (hs : s.submitter = .refused) :
    Sound { s with disposed := true, work := false, submitter := .withdrawing } := by
  have hd := h.dispatch_unscheduled (by simp [hs])
  have hc := h.copier_waiting (by simp [hd])
  have hst := h.dispatch
  simp only [DispatchOk, hd] at hst
  have hh := h.submitter
  simp only [SubmitterOk, hs] at hh
  have hw := h.work hh.2 hc (by simp [hs]) (by simp [hs])
  exact { h with
    conserved := by
      have h₁ := h.conserved
      simp [hs, hw, hst] at h₁ ⊢
      omega
    submitter := ⟨hh.1, rfl⟩
    dispatch := by simp [hd, hst]
    copier := by simp [hc, hd]
    work := by simp
    popped := fun _ => rfl
    skipped := by simp [hd]
    outcome := by simp [hh] }

theorem withdrawHandle (hs : s.submitter = .withdrawing) :
    Sound { s.complete .cancelled with submitter := .disposing } := by
  have hd := h.dispatch_unscheduled (by simp [hs])
  have hst := h.dispatch
  simp only [DispatchOk, hd] at hst
  have hh := h.submitter
  simp only [SubmitterOk, hs] at hh
  have hf := h.forwarder.mpr (by simp [hh])
  rw [complete_of_pending hh.1]
  exact { h with
    conserved := by simpa [hs, hf] using h.conserved
    submitter := ⟨h.popped hh.2, .inr ⟨rfl, hh.2⟩⟩
    dispatch := by simp [hd, hst]
    work := by simp
    skipped := by simp [hd]
    completed := fun _ => ⟨_, rfl⟩
    forwarder := by simp
    outcome := by simp [ending, hd] }

theorem disposeRejected (hs : s.submitter = .disposing) : Sound { s.dispose with submitter := .raised } := by
  have hd := h.dispatch_unscheduled (by simp [hs])
  have hst := h.dispatch
  simp only [DispatchOk, hd] at hst
  have h₁ := h.conserved
  exact { h with
    conserved := by simp [hs] at h₁ ⊢; omega
    submitter := by simpa [hs] using h.submitter
    dispatch := by simp [hd, hst]
    work := by simp
    outcome := by simpa [ending, hd, hs] using h.outcome }

end Submitter

variable (h : Sound s)
include h

theorem cancelHandle (hs : s.submitter = .returned) (hh : s.handle = .pending) :
    Sound { s.complete .cancelled with cancelAccepted := true } := by
  have hf := h.forwarder.mpr (by simp [hh])
  rw [complete_of_pending hh]
  exact { h with
    conserved := by simpa [hf] using h.conserved
    submitter := by simp [hs]
    skipped := fun _ => rfl
    completed := fun _ => ⟨_, rfl⟩
    forwarder := by simp
    outcome := by simp }

theorem dispatch_queued (hh : s.forwarder = .called) (ht : s.task = false)
    (hc : s.startClaimed = false) (hs : s.started = false) (hd : s.disposed = false) : s.dispatch = .queued := by
  have hf := h.forwarder
  have h₁ := h.submitter
  have h₂ := h.dispatch
  have h₃ := h.copier
  cases hd' : s.dispatch <;> simp_all
  case unscheduled => cases hs' : s.submitter <;> simp_all
  case bound => cases hc' : s.copier <;> simp_all

theorem forwardCancellation (hf : s.forwarder = .called) : Sound s.forwardCancellation := by
  have h₁ := h.conserved
  have h₂ := h.forwarder
  unfold Submission.forwardCancellation
  split
  case isTrue =>
    exact { h with
      conserved := by simpa [hf] using h₁
      forwarder := by simp [← h₂, hf] }
  case isFalse hh =>
    split
    case isTrue hw =>
      simp only [Bool.and_eq_true, Bool.not_eq_true'] at hw
      obtain ⟨⟨⟨ht, hc⟩, hs⟩, hd⟩ := hw
      have hq := h.dispatch_queued hf ht hc hs hd
      have hr : s.submitter = .returned := by
        have := h.dispatch
        simp_all
      have hc' := h.copier_waiting (by simp [hq])
      have hw := h.work hd hc' (by simp [hr]) (by simp [hr])
      exact { h with
        conserved := by simp_all
        faultless := by simp [h.faultless, hw]
        submitter := by simpa [hr] using h.submitter
        dispatch := by simpa [hq] using h.dispatch
        copier := by simp [hc', hq]
        work := by simp
        popped := fun _ => rfl
        skipped := fun _ => by simpa using cancelled_of_isCancelled (by simpa using hh)
        forwarder := by simp [← h₂, hf] }
    split
    all_goals exact { h with
      conserved := by simpa [hf] using h₁
      forwarder := by simp [← h₂, hf] }

theorem forwardDispose (hf : s.forwarder = .disposing) : Sound { s.dispose with forwarder := .finished } := by
  have h₁ := h.conserved
  exact { h with
    conserved := by simp [hf] at h₁ ⊢; omega
    forwarder := by simp [← h.forwarder, hf] }

theorem forwardSend (hf : s.forwarder = .sending) : Sound { s with cancelScheduled := true, forwarder := .finished } :=
  { h with
    conserved := by simpa [hf] using h.conserved
    forwarder := by simp [← h.forwarder, hf] }

theorem cancelTask : Sound s.cancelTask := by
  unfold Submission.cancelTask
  split
  all_goals exact { h with }

theorem accepted (he : s.ending = none) (hh : s.handle = .completed e) : s.cancelAccepted = true ∧ e = .cancelled := by
  simpa [he] using h.outcome e hh

theorem outcome_of_accepted (he : s.ending = none) (hh : s.handle = .completed e)
    {P : Prop} : (s.cancelAccepted = true ∧ e = .cancelled) ∨ P :=
  .inl <| h.accepted he hh

theorem startOnLoop (hd : s.dispatch = .queued) : Sound s.startOnLoop := by
  have hc := h.copier_waiting (by simp [hd])
  have h₂ := h.dispatch
  simp only [DispatchOk, hd] at h₂
  obtain ⟨hr, ha, ht, hl, hs⟩ := h₂
  have h₁ := h.conserved
  have hn : s.ending = none := by simp [ending, hd, hr]
  have hw := fun hp => h.work hp hc (by simp [hr]) (by simp [hr])
  unfold Submission.startOnLoop
  split
  case isTrue hh =>
    split
    case isTrue hp =>
      exact { h with
        conserved := by simpa [hd] using h₁
        dispatch := by simp [hr, ha, ht, hl, hs, hp]
        copier := by simp [hc]
        skipped := fun _ => h.skipped <| .inr <| .inr ⟨hd, hp⟩
        completed := by simp [hc]
        outcome := fun _ hh => h.outcome_of_accepted hn hh }
    case isFalse hp =>
      simp only [Bool.not_eq_true] at hp
      exact { h with
        conserved := by simp_all
        faultless := by simp [h.faultless, hw hp]
        submitter := by simpa [hr] using h.submitter
        dispatch := by simp [hr, ha, ht, hl, hs]
        copier := by simp [hc]
        work := by simp
        popped := fun _ => rfl
        skipped := fun _ => by simpa using cancelled_of_isCancelled (by simpa [hp] using hh)
        completed := by simp [hc]
        outcome := fun _ hh => h.outcome_of_accepted hn hh }
  case isFalse hh =>
    simp only [Bool.or_eq_true, not_or, Bool.not_eq_true] at hh
    exact { h with
      conserved := by simpa [hd] using h₁
      dispatch := by simp [hr, ha, ht, hs, hh]
      copier := by simp [hc]
      skipped := by simp
      completed := by simp [hc]
      outcome := fun _ hh => h.outcome_of_accepted hn hh }

theorem skip (hd : s.dispatch = .skipping) : Sound { s.dispose with dispatch := .skipped } := by
  have hc := h.copier_waiting (by simp [hd])
  have h₁ := h.conserved
  exact { h with
    conserved := by simp [hd] at h₁ ⊢; omega
    dispatch := by simpa [hd] using h.dispatch
    copier := by simp [hc]
    skipped := fun _ => h.skipped <| .inl hd
    completed := by simp [hc]
    outcome := by simpa [ending, hd] using h.outcome }

theorem enterRun_conserved (hs : s.started = false) (hw : s.work = true) : s.starts + 1 + s.disposals + s.owed = 1 := by
  have h₁ := h.conserved
  simp only [undecided, hs, hw, Bool.not_false, Bool.and_self, Bool.toNat_true] at h₁
  omega

theorem createTask (hd : s.dispatch = .creating) (c : Creation ρ) : Sound (s.createTask c) := by
  have hc := h.copier_waiting (by simp [hd])
  have h₂ := h.dispatch
  simp only [DispatchOk, hd] at h₂
  obtain ⟨hr, ha, ht, hl, hs, hp⟩ := h₂
  have h₁ := h.conserved
  have hn : s.ending = none := by simp [ending, hd, hr]
  have hw := h.work hp hc (by simp [hr]) (by simp [hr])
  have h₃ := h.enterRun_conserved hs hw
  have h₄ := h.starts
  cases c with
  | lazy =>
    exact { h with
      conserved := by simpa [hd] using h₁
      dispatch := by simp [hr, ht, hl, hp]
      runner := by simp [hs]
      copier := by simp [hc]
      skipped := by simp
      completed := by simp [hc]
      outcome := fun _ hh => h.outcome_of_accepted hn hh }
  | eager e =>
    cases e
    all_goals exact { h with
      conserved := by simpa [hd] using h₃
      starts := by simp [h₄, hs]
      faultless := by simp [h.faultless, hw]
      dispatch := by simp [hr, ht, hl, hp]
      runner := by simp
      copier := by simp [hc]
      skipped := by simp
      completed := by simp [hc]
      outcome := fun _ hh => h.outcome_of_accepted hn hh }
  | raises stepped error =>
    cases stepped
    case false =>
      exact { h with
        conserved := by simpa [hd] using h₁
        dispatch := by simp [hr, ht, hl, hp]
        runner := by simp
        copier := by simp [hc]
        skipped := by simp
        completed := by simp [hc]
        outcome := fun _ hh => h.outcome_of_accepted hn hh }
    case true =>
      exact { h with
        conserved := by simpa [hd] using h₃
        starts := by simp [h₄, hs]
        faultless := by simp [h.faultless, hw]
        dispatch := by simp [hr, ht, hl, hp]
        runner := by simp
        copier := by simp [hc]
        skipped := by simp
        completed := by simp [hc]
        outcome := fun _ hh => h.outcome_of_accepted hn hh }

theorem startFailed (hd : s.dispatch = .failing error) : Sound (s.startFailed error) := by
  have hc := h.copier_waiting (by simp [hd])
  have h₂ := h.dispatch
  simp only [DispatchOk, hd] at h₂
  obtain ⟨hr, ha, ht, hl, hp⟩ := h₂
  have h₁ := h.conserved
  have hn : s.ending = none := by simp [ending, hd, hr]
  have hw := h.work hp hc (by simp [hr]) (by simp [hr])
  unfold Submission.startFailed
  split
  case isTrue hs =>
    simp only [hp, Bool.not_false, Bool.and_true, Bool.not_eq_true'] at hs
    exact { h with
      conserved := by simp_all
      faultless := by simp [h.faultless, hw]
      submitter := by simpa [hr] using h.submitter
      dispatch := by simp [hr, ha, ht]
      copier := by simp [hc]
      work := by simp
      popped := fun _ => rfl
      skipped := by simp
      completed := by simp [hc]
      outcome := fun _ hh => h.outcome_of_accepted hn hh }
  case isFalse hs =>
    simp only [hp, Bool.not_false, Bool.and_true, Bool.not_eq_true', Bool.not_eq_false] at hs
    exact { h with
      conserved := by simpa [hd] using h₁
      dispatch := by simp [hr, ha, ht, hs]
      copier := by simp [hc]
      skipped := by simp
      completed := by simp [hc]
      outcome := fun _ hh => h.outcome_of_accepted hn hh }

theorem failDispose (hd : s.dispatch = .dropping error) :
    Sound { s.dispose with dispatch := .reporting error } := by
  have hc := h.copier_waiting (by simp [hd])
  have h₁ := h.conserved
  exact { h with
    conserved := by simp [hd] at h₁ ⊢; omega
    dispatch := by simpa [hd] using h.dispatch
    copier := by simp [hc]
    skipped := by simp
    completed := by simp [hc]
    outcome := by simpa [ending, hd] using h.outcome }

theorem failReport (hd : s.dispatch = .reporting error) :
    Sound { s.complete (.result error) with dispatch := .failed error } := by
  have hc := h.copier_waiting (by simp [hd])
  have h₂ := h.dispatch
  simp only [DispatchOk, hd] at h₂
  have hr := h₂.1
  have hn : s.ending = none := by simp [ending, hd, hr]
  have hh := h.submitter
  simp only [SubmitterOk, hr] at hh
  cases hh' : s.handle with
  | absent => exact absurd hh' hh
  | pending =>
    have hf := h.forwarder.mpr (by simp [hh'])
    rw [complete_of_pending hh']
    exact { h with
      conserved := by simpa [hd, hf] using h.conserved
      submitter := by simp [hr]
      dispatch := by simpa [hd] using h.dispatch
      copier := by simp [hc]
      skipped := by simp
      completed := by simp
      forwarder := by simp
      outcome := by simp [ending] }
  | completed e =>
    rw [complete_eq_self hh']
    exact { h with
      conserved := by simpa [hd] using h.conserved
      dispatch := by simpa [hd] using h.dispatch
      copier := by simp [hc]
      skipped := by simp
      completed := fun _ => ⟨e, hh'⟩
      outcome := fun _ hh => h.outcome_of_accepted hn hh }

theorem bindTask (hd : s.dispatch = .binding) : Sound s.bindTask := by
  have hc := h.copier_waiting (by simp [hd])
  have h₂ := h.dispatch
  simp only [DispatchOk, hd] at h₂
  obtain ⟨hr, ha, hl, ht, hk, hp⟩ := h₂
  have hn : s.ending = none := by simp [ending, hd, hr]
  have hb : Sound { s with task := true, startClaimed := false, dispatch := .bound } :=
    { h with
      conserved := by simpa [hd] using h.conserved
      dispatch := by simp [hr, ha, hl]
      copier := by simp [hc, hp]
      skipped := by simp
      completed := by simp [hc]
      outcome := fun _ hh => h.outcome_of_accepted hn hh }
  unfold Submission.bindTask
  split
  · exact hb.cancelTask
  · exact hb

theorem task_of_bound (hd : s.dispatch = .bound) (hr : ∀ e, s.runner ≠ .done e) : s.copier = .waiting := by
  have hc := h.copier
  cases hc' : s.copier <;> simp_all

theorem firstStep (hd : s.dispatch = .bound) (hr : s.runner = .ready)
    (e : Option (Ending ρ)) : Sound (s.firstStep e) := by
  have hc := h.task_of_bound hd (by simp [hr])
  have hs : s.started = false := by simpa [hr] using h.runner
  have h₂ := h.dispatch
  simp only [DispatchOk, hd] at h₂
  have hp := h.copier
  simp only [CopierOk, hc] at hp
  have hw := h.work (hp hd).2 hc (by simp [h₂]) (by simp [h₂])
  have hn : s.ending = none := by simp [ending, hd, hr, h₂]
  unfold Submission.firstStep
  split
  case isTrue =>
    exact { h with
      dispatch := by simp [hd, h₂]
      runner := by simp
      copier := by simpa [hc] using hp
      outcome := fun _ hh => h.outcome_of_accepted hn hh }
  have h₃ := h.enterRun_conserved hs hw
  exact { h with
    conserved := by simpa [hd] using h₃
    starts := by simp [h.starts, hs]
    faultless := by simp [h.faultless, hw]
    dispatch := by cases e <;> simp [hd, h₂]
    runner := by cases e <;> simp
    copier := by simpa [hc] using hp
    outcome := fun _ hh => h.outcome_of_accepted hn hh }

theorem finish (hd : s.dispatch = .bound) (hr : s.runner = .suspended) (e : Ending ρ) :
    Sound { s with runner := .done e } := by
  have hc := h.task_of_bound hd (by simp [hr])
  have h₂ := h.dispatch
  simp only [DispatchOk, hd] at h₂
  have hn : s.ending = none := by simp [ending, hd, hr, h₂]
  exact { h with
    dispatch := by simp [hd, h₂]
    runner := .inl <| by simpa [hr] using h.runner
    copier := by simpa [hc] using h.copier
    outcome := fun _ hh => h.outcome_of_accepted hn hh }

theorem copyOutcome (hd : s.dispatch = .bound) (hr : s.runner = .done e)
    (hc : s.copier = .waiting) : Sound (s.copyOutcome e) := by
  have h₂ := h.dispatch
  simp only [DispatchOk, hd] at h₂
  have hp := h.copier
  simp only [CopierOk, hc] at hp
  have hp := (hp hd).2
  have hw := h.work hp hc (by simp [h₂]) (by simp [h₂])
  have he := h.runner
  simp only [RunnerOk, hr] at he
  have h₁ := h.conserved
  unfold Submission.copyOutcome
  split
  case isTrue hs =>
    simp only [hp, Bool.not_false, Bool.and_true, Bool.and_eq_true, Bool.not_eq_true'] at hs
    exact { h with
      conserved := by simp_all
      faultless := by simp [h.faultless, hw]
      submitter := by simpa [h₂] using h.submitter
      dispatch := by simp [hd, hr, h₂]
      copier := by simp [hd, hr]
      work := by simp
      popped := fun _ => rfl
      skipped := by simp [hd]
      completed := by simp [hd] }
  case isFalse hs =>
    -- a task that ended without entering `run` was cancelled, and its work would have been disposed
    have hs : s.started = true := by
      rcases he with he | he
      · exact he
      · simpa [he, hp, Ending.isCancelled] using hs
    exact { h with
      conserved := by simpa [hc, hs] using h₁
      submitter := by simpa [h₂] using h.submitter
      dispatch := by simp [hd, hr, h₂]
      copier := by simp [hd, hr, hs]
      work := by simp
      popped := fun _ => rfl
      completed := by simp [hd] }

theorem copyDispose (hc : s.copier = .disposing) : Sound { s.dispose with copier := .publishing } := by
  have h₁ := h.conserved
  have h₂ := h.copier
  simp only [CopierOk, hc] at h₂
  exact { h with
    conserved := by simp [hc] at h₁ ⊢; omega
    copier := by simp [h₂]
    work := by simp
    completed := by simp [h₂] }

theorem publish (hr : s.runner = .done e) (hc : s.copier = .publishing) :
    Sound { s.complete e with copier := .finished } := by
  have h₂ := h.copier
  simp only [CopierOk, hc] at h₂
  obtain ⟨hd, -, ht, hs⟩ := h₂
  have h₃ := h.dispatch
  simp only [DispatchOk, hd] at h₃
  have hh := h.submitter
  simp only [SubmitterOk, h₃] at hh
  cases hh' : s.handle with
  | absent => exact absurd hh' hh
  | pending =>
    have hf := h.forwarder.mpr (by simp [hh'])
    rw [complete_of_pending hh']
    exact { h with
      conserved := by simpa [hc, hf] using h.conserved
      submitter := by simp [h₃]
      copier := by simp [hd, hr, ht, hs]
      work := by simp
      skipped := by simp [hd]
      completed := by simp
      forwarder := by simp
      outcome := by simp [ending, hd, hr] }
  | completed e' =>
    rw [complete_eq_self hh']
    exact { h with
      conserved := by simpa [hc] using h.conserved
      copier := by simp [hd, hr, ht, hs]
      work := by simp
      completed := fun _ => ⟨e', hh'⟩ }

theorem dispatchStep (e : s.dispatchStep c = some t) : Sound t := by
  unfold Submission.dispatchStep at e
  split at e <;> cases e
  case h_1 hd => exact h.startOnLoop hd
  case h_2 hd => exact h.skip hd
  case h_3 hd => exact h.createTask hd c
  case h_4 hd => exact h.startFailed hd
  case h_5 hd => exact h.failDispose hd
  case h_6 hd => exact h.failReport hd
  case h_7 hd => exact h.bindTask hd

theorem step (e : s.step a = some t) : Sound t := by
  cases a <;> simp only [Submission.step, Option.ite_none_right_eq_some, Option.some.injEq] at e
  case accept b => exact e.2 ▸ h.accept e.1 b
  case schedule b => exact e.2 ▸ h.schedule e.1 b
  case withdraw => exact e.2 ▸ h.withdraw e.1
  case withdrawHandle => exact e.2 ▸ h.withdrawHandle e.1
  case disposeRejected => exact e.2 ▸ h.disposeRejected e.1
  case forward => exact e.2 ▸ h.forwardCancellation e.1
  case dispatch c => exact h.dispatchStep e
  case cancelTask => exact e ▸ h.cancelTask
  case copyDispose => exact e.2 ▸ h.copyDispose e.1
  case runCancel =>
    obtain ⟨-, rfl⟩ := e
    exact { h.cancelTask with }
  case cancelHandle =>
    split at e <;> cases e
    case h_1 hs hh => exact h.cancelHandle hs hh
  case forwardEffect =>
    split at e <;> cases e
    case h_1 hf => exact h.forwardDispose hf
    case h_2 hf => exact h.forwardSend hf
  case firstStep e' =>
    split at e <;> cases e
    case h_1 hd hr => exact h.firstStep hd hr e'
  case finish e' =>
    split at e <;> cases e
    case h_1 hd hr => exact h.finish hd hr e'
  case copy =>
    split at e <;> cases e
    case h_1 hd hr hc => exact h.copyOutcome hd hr hc
  case publish =>
    split at e <;> cases e
    case h_1 hr hc => exact h.publish hr hc

theorem handle_completed (hq : s.Quiescent) (hh : s.handle ≠ .absent) : ∃ e, s.handle = .completed e := by
  obtain ⟨hs, hd, hr, -⟩ := hq
  have h₂ := h.dispatch
  rcases hd with hd | hd | ⟨error, hd⟩ | hd <;> simp only [DispatchOk, hd] at h₂
  · have hs := hs.resolve_right h₂.1
    have h₄ := h.submitter
    simp only [SubmitterOk, hs] at h₄
    exact ⟨_, (h₄.2.resolve_left hh).1⟩
  · exact ⟨_, h.skipped (.inr <| .inl hd)⟩
  · exact h.completed (.inr ⟨error, hd⟩)
  · rcases hr with hr | hr | ⟨e, -, hc⟩
    · exact absurd hr h₂.2.1
    · exact absurd hr h₂.2.2.1
    · exact h.completed (.inl hc)

end Sound

section Progress

theorem dispatch_complete : (s.complete e).dispatch = s.dispatch := by
  unfold complete
  split <;> rfl

theorem submitter_complete : (s.complete e).submitter = s.submitter := by
  unfold complete
  split <;> rfl

end Progress

section Stable

@[simp] theorem handle_cancelTask (s : Submission ρ) : s.cancelTask.handle = s.handle := by
  unfold cancelTask
  split <;> rfl

end Stable

end Submission

end Aio
