import PysdkModel.Aio.Runtime
import PysdkModel.Aio.Theorems.Submission

-- What the events of a submission can do to its handle, its dispatch and its task, once it has been scheduled.

namespace Aio

namespace Submission

variable {ρ : Type} {s t u : Submission ρ}

theorem runner_complete {e : Ending ρ} : (s.complete e).runner = s.runner := by
  unfold complete
  split <;> rfl

theorem starts_complete {e : Ending ρ} : (s.complete e).starts = s.starts := by
  unfold complete
  split <;> rfl

theorem handle_complete {e : Ending ρ} :
    (s.complete e).handle = s.handle ∨ ∃ e', (s.complete e).handle = .completed e' := by
  unfold complete
  split
  · exact .inr ⟨e, rfl⟩
  · exact .inl rfl

theorem forwardCancellation_frame : s.forwardCancellation.dispatch = s.dispatch ∧
    s.forwardCancellation.runner = s.runner ∧ s.forwardCancellation.handle = s.handle ∧
    s.forwardCancellation.submitter = s.submitter ∧ s.forwardCancellation.starts = s.starts := by
  unfold forwardCancellation
  split
  · exact ⟨rfl, rfl, rfl, rfl, rfl⟩
  · split
    · exact ⟨rfl, rfl, rfl, rfl, rfl⟩
    · split <;> exact ⟨rfl, rfl, rfl, rfl, rfl⟩

theorem startOnLoop_frame : s.startOnLoop.runner = s.runner ∧ s.startOnLoop.handle = s.handle ∧
    s.startOnLoop.submitter = s.submitter := by
  unfold startOnLoop
  split
  · split <;> exact ⟨rfl, rfl, rfl⟩
  · exact ⟨rfl, rfl, rfl⟩

theorem cancelTask_frame : s.cancelTask.dispatch = s.dispatch ∧ s.cancelTask.runner = s.runner ∧
    s.cancelTask.handle = s.handle ∧ s.cancelTask.submitter = s.submitter ∧ s.cancelTask.starts = s.starts := by
  unfold cancelTask
  split <;> exact ⟨rfl, rfl, rfl, rfl, rfl⟩

end Submission

namespace AsyncRuntime

open Submission

variable {ρ : Type} {s t u : Submission ρ} {i j : Nat}

def isDispatching (s : Submission ρ) : Bool :=
  match s.dispatch with
  | .unscheduled | .skipped | .failed _ | .bound => false
  | _ => true

def isReady (s : Submission ρ) : Bool :=
  match s.runner with
  | .ready => true
  | _ => false

def holdsLock (s : Submission ρ) : Bool :=
  match s.submitter with
  | .scheduling | .refused | .withdrawing => true
  | _ => false

structure Evolves (s t : Submission ρ) : Prop where
  tracked : t.handle = .absent → s.handle = .absent
  handle : isPending t.handle → isPending s.handle
  dispatch : isDispatching t → isDispatching s
  fresh : isReady t → isReady s ∨ isDispatching s
  active : isActive t → isActive s ∨ isReady s ∨ isDispatching s
  done : taskDone s → taskDone t
  lock : holdsLock t → holdsLock s
  quiet : isDispatching s = false → isReady s = false → t.starts = s.starts

namespace Evolves

theorem refl : Evolves s s :=
  ⟨id, id, id, .inl, .inl, id, id, fun _ _ => rfl⟩

theorem trans (h : Evolves s t) (h' : Evolves t u) : Evolves s u where
  tracked := h.tracked ∘ h'.tracked
  handle := h.handle ∘ h'.handle
  dispatch := h.dispatch ∘ h'.dispatch
  fresh hu := by
    rcases h'.fresh hu with ht | ht
    · exact h.fresh ht
    · exact .inr (h.dispatch ht)
  active hu := by
    rcases h'.active hu with ht | ht | ht
    · exact h.active ht
    · exact .inr (h.fresh ht)
    · exact .inr (.inr (h.dispatch ht))
  done := h'.done ∘ h.done
  lock := h.lock ∘ h'.lock
  quiet hd hr := by
    have hd' : isDispatching t = false := Bool.eq_false_iff.mpr fun ht => by simpa [hd] using h.dispatch ht
    have hr' : isReady t = false := Bool.eq_false_iff.mpr fun ht => by simpa [hd, hr] using h.fresh ht
    exact (h'.quiet hd' hr').trans (h.quiet hd hr)

attribute [local simp] holdsLock taskDone

theorem of_frame (hh : t.handle = s.handle ∨ ∃ e, t.handle = .completed e) (hd : t.dispatch = s.dispatch)
    (hr : t.runner = s.runner) (hl : holdsLock t → holdsLock s) (hn : t.starts = s.starts) : Evolves s t := by
  refine ⟨?_, ?_, ?_, ?_, ?_, ?_, hl, fun _ _ => hn⟩
  case refine_1 | refine_2 => rcases hh with h | ⟨e, h⟩ <;> simp [h, isPending]
  case refine_3 => simp [isDispatching, hd]
  case refine_4 => exact fun h => .inl (by simpa [isReady, hr] using h)
  case refine_5 => exact fun h => .inl (by simpa [isActive, hr] using h)
  case refine_6 => simp [hr]

theorem of_dispatch (hs : isDispatching s) (hh : t.handle = s.handle ∨ ∃ e, t.handle = .completed e)
    (hr : taskDone s → taskDone t) (hl : t.submitter = s.submitter) : Evolves s t := by
  refine ⟨?_, ?_, fun _ => hs, fun _ => .inr hs, fun _ => .inr (.inr hs), hr, by simp [hl],
    by simp [hs]⟩
  all_goals rcases hh with h | ⟨e, h⟩ <;> simp [h, isPending]

theorem dispatchStep (hs : Sound s) {c : Creation ρ} (e : s.dispatchStep c = some t) : Evolves s t := by
  have hd : isDispatching s := by
    unfold Submission.dispatchStep at e
    unfold isDispatching
    cases h : s.dispatch <;> simp_all
  unfold Submission.dispatchStep at e
  split at e <;> cases e
  case h_1 =>
    obtain ⟨hr, hh, hl⟩ := startOnLoop_frame (s := s)
    exact of_dispatch hd (.inl hh) (by simp [hr]) hl
  case h_2 => exact of_dispatch hd (.inl rfl) id rfl
  case h_3 hc =>
    have hr := hs.dispatch
    simp only [DispatchOk, hc] at hr
    refine of_dispatch hd ?_ ?_ ?_
    · unfold createTask; split <;> exact .inl rfl
    · simp [hr.right.left]
    · unfold createTask; split <;> rfl
  case h_4 =>
    refine of_dispatch hd ?_ ?_ ?_ <;> unfold startFailed <;> split
    all_goals first | exact .inl rfl | exact id | rfl
  case h_5 => exact of_dispatch hd (.inl rfl) id rfl
  case h_6 =>
    refine of_dispatch hd handle_complete ?_ submitter_complete
    simp [runner_complete]
  case h_7 =>
    obtain ⟨_, hr, hh, hl, -⟩ := cancelTask_frame
      (s := { s with task := true, startClaimed := false, dispatch := .bound })
    refine of_dispatch hd ?_ ?_ ?_ <;> unfold bindTask <;> dsimp only <;> split
    all_goals first | exact .inl rfl | exact .inl hh | exact id | rfl | exact hl | simp [hr]

theorem isReady_firstStep {e : Option (Ending ρ)} : isReady (s.firstStep e) = false := by
  unfold Submission.firstStep
  split
  · rfl
  · cases e <;> rfl

theorem firstStep (hr : s.runner = .ready) {e : Option (Ending ρ)} : Evolves s (s.firstStep e) := by
  have hs : isReady s := by simp [isReady, hr]
  refine ⟨?_, ?_, ?_, by simp [isReady_firstStep], fun _ => .inr (.inl hs), by simp [hr], ?_,
    by simp [hs]⟩
  all_goals unfold Submission.firstStep; split <;> exact id

theorem step (hs : Sound s) {a : Submission.Event ρ} (e : s.step a = some t) (ha : a ≠ .schedule true)
    (hl : s.submitter ≠ .admitting) : Evolves s t := by
  cases a <;> simp only [Submission.step, Option.ite_none_right_eq_some, Option.some.injEq] at e
  case accept => exact absurd e.left hl
  case schedule b =>
    cases b
    case true => exact absurd rfl ha
    case false =>
      rw [← e.right]
      exact of_frame (.inl rfl) rfl rfl (by simp [e.left]) rfl
  case withdraw =>
    rw [← e.right]
    exact of_frame (.inl rfl) rfl rfl (by simp [e.left]) rfl
  case withdrawHandle =>
    rw [← e.right]
    exact of_frame handle_complete dispatch_complete runner_complete (by simp) starts_complete
  case disposeRejected =>
    rw [← e.right]
    exact of_frame (.inl rfl) rfl rfl (by simp) rfl
  case cancelHandle =>
    split at e <;> cases e
    refine of_frame handle_complete dispatch_complete runner_complete ?_ starts_complete
    simp [submitter_complete]
  case forward =>
    rw [← e.right]
    obtain ⟨hd, hr, hh, hl, hn⟩ := forwardCancellation_frame (s := s)
    exact of_frame (.inl hh) hd hr (by simp [hl]) hn
  case forwardEffect =>
    split at e <;> cases e <;> exact of_frame (.inl rfl) rfl rfl id rfl
  case dispatch => exact dispatchStep hs e
  case runCancel =>
    rw [← e.right]
    obtain ⟨hd, hr, hh, hl, hn⟩ := cancelTask_frame (s := s)
    exact of_frame (.inl hh) hd hr (by simp [hl]) hn
  case cancelTask =>
    rw [← e]
    obtain ⟨hd, hr, hh, hl, hn⟩ := cancelTask_frame (s := s)
    exact of_frame (.inl hh) hd hr (by simp [hl]) hn
  case firstStep =>
    split at e <;> cases e
    case h_1 hr => exact firstStep hr
  case finish =>
    split at e <;> cases e
    exact ⟨id, id, id, by simp [isReady], by simp [isActive], by simp, id, fun _ _ => rfl⟩
  case copy =>
    split at e <;> cases e
    refine of_frame ?_ ?_ ?_ ?_ ?_ <;> unfold copyOutcome <;> split
    all_goals first | exact .inl rfl | rfl | exact id
  case copyDispose =>
    rw [← e.right]
    exact of_frame (.inl rfl) rfl rfl id rfl
  case publish =>
    split at e <;> cases e
    refine of_frame handle_complete dispatch_complete runner_complete ?_ starts_complete
    simp [submitter_complete]

end Evolves

end AsyncRuntime

end Aio
