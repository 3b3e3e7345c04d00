import PysdkModel.Aio.Runtime
import PysdkModel.Aio.Bookkeeping
import PysdkModel.Aio.Theorems.Submission

-- A submission in the collections of its runtime. Every run of a submission, in the order in which a loop runs its
-- callbacks, is a run of the bookkeeping in which the handle and the task have the number 0.

namespace Aio.Submission

open Machine (Reaches anyEvent)
open AsyncRuntime (isActive)

variable {ρ : Type} {s t : Submission ρ} {a : Event ρ} {c : Creation ρ} {e : Ending ρ} {m : Bool} {q : Finset Nat}

def stage : Submitter → SubmitStage
  | .admitting | .scheduling | .refused | .withdrawing => .tracked
  | .disposing | .raised | .returned => .returned

def startStage : Dispatch ρ → StartStage
  | .unscheduled => .unscheduled
  | .queued => .queued
  | .creating | .failing _ | .dropping _ | .reporting _ | .binding => .claimed
  | .skipping | .skipped | .failed _ | .bound => .finished

def future (forwarder : Forwarder) : Handle ρ → HandleFuture
  | .completed e => if forwarder = .called then .completing e.isCancelled else .done e.isCancelled
  | .absent | .pending => .pending

def handles (s : Submission ρ) : List SdkHandle :=
  if s.handle matches .absent then []
  else
    [{ track := true, background := false, bridged := false, stage := stage s.submitter,
       future := future s.forwarder s.handle, start := startStage s.dispatch, discards := true }]

def taskPhase (s : Submission ρ) : TaskPhase :=
  match s.runner with
  | .ready => .created
  | .suspended => .running
  | _ => if s.copier = .finished then .settled else .ended

def tasks (s : Submission ρ) (mustCancel : Bool) : List SdkTask :=
  match s.dispatch with
  | .bound =>
    [{ submission := 0, runner := true, phase := s.taskPhase
       mustCancel := if s.runner matches .ready then s.cancelRequested else mustCancel }]
  | _ => []

def books (s : Submission ρ) (mustCancel : Bool) (requested : Finset Nat) : Bookkeeping :=
  { Bookkeeping.initial with
    handles := s.handles
    tasks := s.tasks mustCancel
    submissions := bif s.handles.any (!·.future.isDone) then {0} else ∅
    activeTasks := bif isActive s then {0} else ∅
    cancellationRequested := requested
    taskSubmissions := bif isActive s then Dict.set ∅ 0 0 else ∅ }

-- The task factory is not eager, and a task is cancelled by the loop when it is stored and, by a callback, after its
-- first step, which was queued before.
def InOrder (s : Submission ρ) : Event ρ → Prop
  | .dispatch c => c = .lazy ∨ ∃ error, c = .raises false error
  | .cancelTask => s.dispatch = .bound
  | .runCancel => s.runner ≠ .ready
  | _ => True

structure Early (s : Submission ρ) (requested : Finset Nat) : Prop where
  requested : s.dispatch ≠ .bound → requested = ∅ ∧ s.cancelRequested = false
  binding : s.dispatch = .binding → s.runner = .ready

theorem Early.of_bound (hd : s.dispatch = .bound) : Early s q :=
  ⟨absurd hd, fun h => by simp [hd] at h⟩

-- The bookkeeping has a run that takes it to what belongs to `t`.
def Follows (b : Bookkeeping) (t : Submission ρ) : Prop :=
  ∃ m q, Reaches Bookkeeping.step anyEvent b (t.books m q) ∧ Early t q

theorem Follows.single (a : BookEvent) (e : (s.books m q).step a = some (t.books m q)) (h : Early t q) :
    Follows (s.books m q) t :=
  ⟨m, q, .single trivial e, h⟩

theorem Follows.refl (hh : t.handles = s.handles) (ht : t.tasks = s.tasks) (ha : isActive t = isActive s)
    (h : Early t q) : Follows (s.books m q) t :=
  ⟨m, q, by rw [books, books, hh, ht, ha]; exact .refl, h⟩

theorem Sound.handle_ne_absent (h : Sound s) (hd : s.dispatch ≠ .unscheduled) : s.handle ≠ .absent := by
  have hs : s.submitter = .returned := by
    by_contra hn
    exact hd (h.dispatch_unscheduled hn)
  have hh := h.submitter
  simpa only [SubmitterOk, hs] using hh

attribute [local simp] Bookkeeping.step Bookkeeping.withHandle Bookkeeping.withTask Bookkeeping.setHandle
  Bookkeeping.setTask Bookkeeping.complete Bookkeeping.runCallbacks Bookkeeping.discardSubmission Bookkeeping.initial
  HandleFuture.isPending HandleFuture.isDone HandleFuture.isCancelled Ending.isCancelled isActive handles stage
  startStage future tasks taskPhase books popWork dispose

namespace Early

section

variable (h : Early s q)
include h

theorem accept (hs : Sound s) (hp : s.submitter = .admitting) (accepted : Bool) :
    Follows (s.books m q) (s.accept accepted) := by
  have hh := hs.submitter
  simp only [SubmitterOk, hp] at hh
  have hd := hs.dispatch_unscheduled (by simp [hp])
  cases accepted
  case false => exact .refl (by simp [Submission.accept, hh]) rfl rfl ⟨h.requested, h.binding⟩
  have hr : Machine.run Bookkeeping.step (s.books m q) [.accept false true false, .add 0, .register 0] =
      some ((s.accept true).books m q) := by
    simp [Machine.run, Submission.accept, hh, hd]
  exact ⟨m, q, .of_run hr, h.requested, h.binding⟩

theorem schedule (hs : Sound s) (hp : s.submitter = .scheduling) (accepted : Bool) :
    Follows (s.books m q) (s.schedule accepted) := by
  have hh := hs.submitter
  simp only [SubmitterOk, hp] at hh
  have hd := hs.dispatch_unscheduled (by simp [hp])
  have hq := h.requested (by simp [hd])
  cases accepted
  case false => exact .refl (by simp [Submission.schedule, hh, hp]) rfl rfl ⟨h.requested, h.binding⟩
  exact .single (.schedule 0 true) (by simp [Submission.schedule, hh, hp, hd]) ⟨fun _ => hq, nofun⟩

theorem withdrawHandle (hs : Sound s) (hp : s.submitter = .withdrawing) :
    Follows (s.books m q) { s.complete .cancelled with submitter := .disposing } := by
  have hh := hs.submitter
  simp only [SubmitterOk, hp] at hh
  rw [complete_of_pending hh.1]
  exact .single (.schedule 0 false) (by simp [hh, hp]) ⟨h.requested, h.binding⟩

theorem cancelHandle (hh : s.handle = .pending) :
    Follows (s.books m q) { s.complete .cancelled with cancelAccepted := true } := by
  rw [complete_of_pending hh]
  exact .single (.cancelHandle 0) (by simp [hh]) ⟨h.requested, h.binding⟩

theorem startOnLoop (hs : Sound s) (hd : s.dispatch = .queued) : Follows (s.books m q) s.startOnLoop := by
  have hh := hs.handle_ne_absent (by simp [hd])
  have hq := h.requested (by simp [hd])
  have hk : s.disposed = true → s.handle = .completed .cancelled := fun hx => hs.skipped (.inr (.inr ⟨hd, hx⟩))
  unfold Submission.startOnLoop
  split_ifs with hc hx
  all_goals refine .single (.claim 0) ?_ ⟨fun _ => hq, nofun⟩
  case pos => by_cases hf : s.forwarder = .called <;> simp [hk hx, hd, hf]
  case neg =>
    have hx : s.handle = .completed .cancelled := cancelled_of_isCancelled (by simpa [hx] using hc)
    by_cases hf : s.forwarder = .called <;> simp [hx, hd, hf]
  case neg =>
    by_cases hf : s.forwarder = .called <;> rcases hx : s.handle with _ | _ | (_ | _) <;>
      simp_all [Handle.isCancelled]

theorem reports {error : ρ} (hs : Sound s) (hd : s.dispatch = .reporting error) :
    Follows (s.books m q) { s.complete (.result error) with dispatch := .failed error } := by
  have hh := hs.handle_ne_absent (by simp [hd])
  have hq := h.requested (by simp [hd])
  refine .single (.createFails 0) ?_ ⟨fun _ => ⟨hq.1, ?_⟩, nofun⟩
  · by_cases hf : s.forwarder = .called <;> cases hx : s.handle <;> simp_all [Submission.complete]
  · cases hx : s.handle <;> simp [Submission.complete, hx, hq]

theorem bindTask (hs : Sound s) (hd : s.dispatch = .binding) : Follows (s.books m q) s.bindTask := by
  have hh := hs.handle_ne_absent (by simp [hd])
  have hr := h.binding hd
  obtain ⟨rfl, hc⟩ := h.requested (by simp [hd])
  unfold Submission.bindTask
  dsimp only
  split_ifs with hx
  case pos =>
    refine ⟨m, {0}, .single (a := .bind 0) trivial ?_, .of_bound ?_⟩
    · have hx := cancelled_of_isCancelled hx
      by_cases hf : s.forwarder = .called <;> simp [Submission.cancelTask, Bookkeeping.cancelTaskOnce, hx, hd, hr, hf]
    · simp [Submission.cancelTask, hr]
  case neg =>
    refine .single (.bind 0) ?_ (.of_bound rfl)
    by_cases hf : s.forwarder = .called <;> rcases hx : s.handle with _ | _ | (_ | _) <;>
      simp_all [Handle.isCancelled]

theorem redispatch (hs : s.dispatch ≠ .bound) (hd : t.dispatch ≠ .bound)
    (hx : startStage t.dispatch = startStage s.dispatch) (hh : t.handle = s.handle) (hf : t.forwarder = s.forwarder)
    (hp : t.submitter = s.submitter) (ha : isActive t = isActive s) (hc : t.cancelRequested = s.cancelRequested)
    (hn : t.dispatch = .binding → t.runner = .ready) : Follows (s.books m q) t := by
  refine .refl ?_ ?_ ha ⟨fun _ => hc ▸ h.requested hs, hn⟩
  · simp only [Submission.handles, hx, hh, hf, hp]
  · funext m
    unfold Submission.tasks
    split <;> trivial

theorem dispatchStep (hs : Sound s) (hc : c = .lazy ∨ ∃ error, c = .raises false error)
    (e : s.dispatchStep c = some t) : Follows (s.books m q) t := by
  unfold Submission.dispatchStep at e
  split at e <;> cases e
  case h_1 hd => exact h.startOnLoop hs hd
  case h_2 hd => exact h.redispatch (by simp [hd]) nofun (by rw [hd]; rfl) rfl rfl rfl rfl rfl nofun
  case h_3 hd =>
    have hr := hs.dispatch
    simp only [DispatchOk, hd] at hr
    have ha : isActive s = false := by simp [hr]
    rcases hc with rfl | ⟨error, rfl⟩
    · exact h.redispatch (by simp [hd]) nofun (by rw [hd]; rfl) rfl rfl rfl ha.symm rfl fun _ => rfl
    · exact h.redispatch (by simp [hd]) nofun (by rw [hd]; rfl) rfl rfl rfl ha.symm rfl nofun
  case h_4 hd =>
    unfold startFailed
    split <;> exact h.redispatch (by simp [hd]) nofun (by rw [hd]; rfl) rfl rfl rfl rfl rfl nofun
  case h_5 hd => exact h.redispatch (by simp [hd]) nofun (by rw [hd]; rfl) rfl rfl rfl rfl rfl nofun
  case h_6 hd => exact h.reports hs hd
  case h_7 hd => exact h.bindTask hs hd

theorem forward (hs : Sound s) (hf : s.forwarder = .called) : Follows (s.books m q) s.forwardCancellation := by
  have hh : ∃ e, s.handle = .completed e := by
    by_contra hn
    have hw := hs.forwarder.mpr (not_exists.mp hn)
    simp [hf] at hw
  obtain ⟨e, hh⟩ := hh
  unfold forwardCancellation
  split_ifs <;> exact .single (.callbacks 0) (by simp [hf, hh]) ⟨h.requested, h.binding⟩

theorem cancelTask (hd : s.dispatch = .bound) : Follows (s.books m q) s.cancelTask := by
  unfold Submission.cancelTask
  split
  case h_1 hr => exact .single (.interrupt 0) (by simp [hd, hr]) (.of_bound hd)
  case h_2 hr => exact .refl rfl (by simp [funext_iff, hd, hr]) rfl (.of_bound hd)
  case h_3 => exact .refl rfl rfl rfl h

theorem runCancel (hs : Sound s) (hr : s.runner ≠ .ready) :
    Follows (s.books m q) { s.cancelTask with cancelScheduled := false } := by
  unfold Submission.cancelTask
  split
  case h_1 => contradiction
  case h_2 hr =>
    have hd : s.dispatch = .bound := by
      have hd := hs.dispatch
      have hb := h.binding
      cases hd' : s.dispatch <;> simp_all [DispatchOk]
    exact .refl rfl (by simp [funext_iff, hd, hr]) rfl (.of_bound hd)
  case h_3 => exact .refl rfl rfl rfl ⟨h.requested, h.binding⟩

end

end Early

namespace Follows

theorem finish (hc : s.copier ≠ .finished) (hd : s.dispatch = .bound) (hr : s.runner = .suspended) :
    Follows (s.books m q) { s with runner := .done e } :=
  ⟨m, q.erase 0, .single (a := .finish 0) trivial (by simp [Bookkeeping.leaveRunner, hd, hr, hc]; rfl), .of_bound hd⟩

theorem firstStep (hc : s.copier ≠ .finished) (hd : s.dispatch = .bound) (hr : s.runner = .ready)
    (e : Option (Ending ρ)) : Follows (s.books m q) (s.firstStep e) := by
  unfold Submission.firstStep
  split_ifs with hx
  case pos => exact ⟨true, q, .single (a := .firstStep 0) trivial (by simp [hd, hr, hx, hc]), .of_bound hd⟩
  case neg =>
    have r : Reaches Bookkeeping.step anyEvent (s.books m q) ({ s.enterRun with runner := .suspended }.books false q) :=
      .single (a := .firstStep 0) trivial (by simp [Bookkeeping.enterRunner, enterRun, hd, hr, hx])
    cases e
    case none => exact ⟨false, q, r, .of_bound hd⟩
    case some =>
      obtain ⟨m', q', r', h'⟩ := finish (s := { s.enterRun with runner := .suspended }) hc hd rfl
      exact ⟨m', q', r.trans r', h'⟩

theorem publish (hs : Sound s) (hr : s.runner = .done e) (hc : s.copier = .publishing) :
    Follows (s.books m q) { s.complete e with copier := .finished } := by
  have hd : s.dispatch = .bound := by
    have hk := hs.copier
    simp only [CopierOk, hc] at hk
    exact hk.1
  have hh := hs.handle_ne_absent (by simp [hd])
  refine .single (.settle 0 e.isCancelled) ?_ (.of_bound ?_)
  · by_cases hf : s.forwarder = .called <;> cases hx : s.handle <;> simp_all [Submission.complete]
  · cases hx : s.handle <;> simp [Submission.complete, hx, hd]

theorem step (hs : Sound s) (h : Early s q) (ho : InOrder s a) (e : s.step a = some t) : Follows (s.books m q) t := by
  have hk := hs.copier
  cases a <;> simp only [Submission.step, Option.ite_none_right_eq_some, Option.some.injEq] at e
  case accept accepted => exact e.2 ▸ h.accept hs e.1 accepted
  case schedule accepted => exact e.2 ▸ h.schedule hs e.1 accepted
  case withdraw =>
    obtain ⟨hp, rfl⟩ := e
    exact .refl (by simp [hp]) rfl rfl ⟨h.requested, h.binding⟩
  case withdrawHandle => exact e.2 ▸ h.withdrawHandle hs e.1
  case disposeRejected =>
    obtain ⟨hp, rfl⟩ := e
    exact .refl (by simp [hp]) rfl rfl ⟨h.requested, h.binding⟩
  case cancelHandle =>
    split at e <;> cases e
    case h_1 hh => exact h.cancelHandle hh
  case forward => exact e.2 ▸ h.forward hs e.1
  case forwardEffect =>
    split at e <;> cases e
    all_goals
      rename_i hf
      exact .refl (by cases hh : s.handle <;> simp [hf, hh]) rfl rfl ⟨h.requested, h.binding⟩
  case dispatch => exact h.dispatchStep hs ho e
  case runCancel => exact e.2 ▸ h.runCancel hs ho
  case cancelTask => exact e ▸ h.cancelTask ho
  case firstStep e' =>
    split at e <;> cases e
    case h_1 hd hr => exact firstStep (fun hf => by simp [CopierOk, hf, hr] at hk) hd hr e'
  case finish =>
    split at e <;> cases e
    case h_1 hd hr => exact finish (fun hf => by simp [CopierOk, hf, hr] at hk) hd hr
  case copy =>
    split at e <;> cases e
    case h_1 hd hr hc =>
      unfold copyOutcome
      split <;> exact .refl rfl (by simp [funext_iff, hd, hr, hc]) rfl (.of_bound hd)
  case copyDispose =>
    obtain ⟨hc, rfl⟩ := e
    simp only [CopierOk, hc] at hk
    obtain ⟨hd, ⟨e, hr⟩, -, -⟩ := hk
    exact .refl rfl (by simp [funext_iff, hd, hr, hc]) rfl (.of_bound hd)
  case publish =>
    split at e <;> cases e
    case h_1 hr hc => exact publish hs hr hc

end Follows

theorem idle_books (hs : Sound s) (hq : s.Quiescent) : (s.books m q).Idle := by
  have hh := hs.handle_completed hq
  have hw := hs.forwarder
  have hb := hs.dispatch
  obtain ⟨hp, -, hr, hf, -⟩ := hq
  constructor
  · by_cases ha : s.handle = .absent
    · simp [ha]
    · obtain ⟨e, hx⟩ := hh ha
      rcases hp with hp | hp <;> rcases hf with hf | hf <;> simp_all
  · cases hd : s.dispatch <;> simp only [books, tasks, hd]
    case bound => rcases hr with hr | hr | ⟨e, hr, hc⟩ <;> simp_all [DispatchOk]
    all_goals simp

-- The tests `isActive` and `isPending` of the runtime are those of its collections, and they are at rest with the
-- submission.
theorem reaches_books (r : Reaches step InOrder (initial : Submission ρ) s) :
    ∃ b, Reaches Bookkeeping.step anyEvent .initial b ∧ (0 ∈ b.activeTasks ↔ isActive s) ∧
      (AsyncRuntime.isPending s.handle → 0 ∈ b.submissions) ∧ (s.Quiescent → b.Idle) := by
  obtain ⟨b, r, hs, m, q, rfl, -⟩ := r.simulates
    (R := fun s b => Sound s ∧ ∃ m q, b = s.books m q ∧ Early s q)
    (by
      rintro s a t _ ⟨hs, m, q, rfl, h⟩ ho e
      obtain ⟨m', q', r, h'⟩ := Follows.step (m := m) hs h ho e
      exact ⟨_, r, hs.step e, m', q', rfl, h'⟩)
    ⟨initial_sound, false, ∅, rfl, ⟨fun _ => ⟨rfl, rfl⟩, nofun⟩⟩
  refine ⟨_, r, ?_, fun hp => ?_, idle_books hs⟩
  · cases hr : s.runner <;> simp [hr]
  · cases hh : s.handle <;> simp_all [AsyncRuntime.isPending]

end Aio.Submission
