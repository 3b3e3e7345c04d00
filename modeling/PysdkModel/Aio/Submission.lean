import PysdkModel.Lib.Machine

-- `AsyncRuntime.submit` and `AsyncRuntime._submit_to_loop` of aio/_runtime.py: one submission of an
-- awaitable to the SDK event loop. The closures `run`, `forward_cancellation`, `copy_outcome` and
-- `start_on_loop` share the variables `task`, `start_claimed`, `started`, `disposed` and `work`. Every
-- section under `state_lock` is one event, and so is everything a closure does between two sections, so
-- that the threads interleave at every point where the source lets them.

namespace Aio

-- How a task, or the public handle, ends. A raised exception is a result as well.
inductive Ending (ρ : Type)
  | result (r : ρ)
  | cancelled
  deriving DecidableEq

-- The `concurrent.futures.Future` behind the public handle; it exists once the work is admitted.
inductive Handle (ρ : Type)
  | absent
  | pending
  | completed (e : Ending ρ)
  deriving DecidableEq

def Ending.isCancelled {ρ : Type} : Ending ρ → Bool
  | .cancelled => true
  | .result _ => false

-- `future.cancelled()`
def Handle.isCancelled {ρ : Type} : Handle ρ → Bool
  | .completed e => e.isCancelled
  | .absent | .pending => false

namespace Submission

-- The thread in `submit`.
inductive Submitter
  | admitting -- before the checks of `_submit_without_disposal`
  | scheduling -- the handle is tracked; `call_soon_threadsafe` comes next
  | refused -- `call_soon_threadsafe` raised
  | withdrawing -- `disposed` is set; `future.cancel()` comes next
  | disposing -- the `except` of `submit`: `dispose_unstarted_awaitable` comes next
  | raised
  | returned
  deriving DecidableEq

inductive Dispatch (ρ : Type)
  | unscheduled
  | queued
  | skipping -- the work is popped; it is disposed next
  | creating -- `start_claimed` is set; `create_task` comes next
  | failing (error : ρ) -- `create_task` raised and the runner is closed
  | dropping (error : ρ) -- the work is popped; it is disposed next
  | reporting (error : ρ) -- `future.set_exception` comes next
  | binding -- the task exists; it is stored next
  | skipped
  | failed (error : ρ)
  | bound
  deriving DecidableEq

inductive Runner (ρ : Type)
  | absent
  | ready -- its first step is still to come
  | suspended
  | done (e : Ending ρ)
  | closed -- `runner.close()`
  deriving DecidableEq

inductive Copier
  | waiting
  | disposing
  | publishing
  | finished
  deriving DecidableEq

-- `forward_cancellation`, which the thread that completes the handle runs.
inductive Forwarder
  | waiting
  | called
  | disposing
  | sending
  | finished
  deriving DecidableEq

-- The ways in which `create_task` ends: the first step of the task comes later, or an eager task factory
-- runs it at once (and possibly to its end), or it raises, before or after it ran the first step.
inductive Creation (ρ : Type)
  | lazy
  | eager (e : Option (Ending ρ))
  | raises (stepped : Bool) (error : ρ)
  deriving DecidableEq

end Submission

open Submission in
structure Submission (ρ : Type) where
  handle : Handle ρ
  task : Bool -- `task is not None`
  startClaimed : Bool
  started : Bool
  disposed : Bool
  work : Bool -- the list `work` has its element
  submitter : Submitter
  dispatch : Dispatch ρ
  runner : Runner ρ
  copier : Copier
  forwarder : Forwarder
  cancelScheduled : Bool -- `_cancel_task_once` is scheduled on the loop
  cancelRequested : Bool -- `task.cancel()` was called
  -- what has happened so far
  starts : Nat -- how often `run` took the awaitable to run it
  disposals : Nat -- how often `dispose_unstarted_awaitable` was called on the awaitable
  cancelAccepted : Bool -- a cancellation of the public handle was accepted
  faulted : Bool -- a closure raised an `IndexError` on the empty list `work`
  deriving DecidableEq

namespace Submission

variable {ρ : Type}

def initial : Submission ρ where
  handle := .absent
  task := false
  startClaimed := false
  started := false
  disposed := false
  work := true
  submitter := .admitting
  dispatch := .unscheduled
  runner := .absent
  copier := .waiting
  forwarder := .waiting
  cancelScheduled := false
  cancelRequested := false
  starts := 0
  disposals := 0
  cancelAccepted := false
  faulted := false

-- `future.cancel()`, `future.set_result` and `future.set_exception`: a future is completed once, and the
-- thread that completes it runs its callback.
def complete (s : Submission ρ) (e : Ending ρ) : Submission ρ :=
  match s.handle with
  | .pending => { s with handle := .completed e, forwarder := .called }
  | _ => s

-- `disposed = True; rejected_work = work.pop()`
def popWork (s : Submission ρ) : Submission ρ :=
  { s with disposed := true, work := false, faulted := s.faulted || !s.work }

-- `dispose_unstarted_awaitable(awaitable)`
def dispose (s : Submission ρ) : Submission ρ :=
  { s with disposals := s.disposals + 1 }

-- The first section of `run`: `started = True; current_work = work[0]`.
def enterRun (s : Submission ρ) : Submission ρ :=
  { s with started := true, starts := s.starts + 1, faulted := s.faulted || !s.work }

-- `task.cancel()`, which does nothing to a task that has ended.
def cancelTask (s : Submission ρ) : Submission ρ :=
  match s.runner with
  | .ready | .suspended => { s with cancelRequested := true }
  | _ => s

inductive Event (ρ : Type)
  | accept (accepted : Bool) -- the checks under `_shutdown_lock`
  | schedule (accepted : Bool) -- `call_soon_threadsafe(start_on_loop)`
  | withdraw -- the section of its `except` clause
  | withdrawHandle -- `future.cancel()` there
  | disposeRejected -- the `except` clause of `submit`
  | cancelHandle -- a caller, or runtime shutdown, cancels the public handle
  | forward -- `forward_cancellation`, to the end of its section
  | forwardEffect -- what it does after the section
  | dispatch (c : Creation ρ) -- the next event of `start_on_loop`
  | runCancel -- the scheduled `_cancel_task_once`
  | cancelTask -- runtime shutdown or final loop cleanup cancels the task
  | firstStep (e : Option (Ending ρ))
  | finish (e : Ending ρ) -- a later step ends the task
  | copy -- `copy_outcome`, to the end of its section
  | copyDispose
  | publish
  deriving DecidableEq

-- What the runtime does of itself; only cancellations come from outside.
def Event.isInternal : Event ρ → Bool
  | .cancelHandle | .cancelTask => false
  | _ => true

-- `_submit_without_disposal` rejects work while the runtime closes or its loop does not run.
def accept (s : Submission ρ) (accepted : Bool) : Submission ρ :=
  if accepted then { s with handle := .pending, submitter := .scheduling }
  else { s with work := false, submitter := .disposing }

def schedule (s : Submission ρ) (accepted : Bool) : Submission ρ :=
  if accepted then { s with submitter := .returned, dispatch := .queued }
  else { s with submitter := .refused }

-- The section of `forward_cancellation`; a handle that was not cancelled has nothing to forward.
def forwardCancellation (s : Submission ρ) : Submission ρ :=
  if !s.handle.isCancelled then { s with forwarder := .finished }
  else if !s.task && !s.startClaimed && !s.started && !s.disposed then
    { s.popWork with forwarder := .disposing }
  else if s.task then { s with forwarder := .sending }
  else { s with forwarder := .finished }

def startOnLoop (s : Submission ρ) : Submission ρ :=
  if s.handle.isCancelled || s.disposed then
    if s.disposed then { s with dispatch := .skipped } else { s.popWork with dispatch := .skipping }
  else { s with startClaimed := true, dispatch := .creating }

-- `create_task`. The task factory of a borrowed loop can be eager, and it can raise; the runner is closed
-- when it does.
def createTask (s : Submission ρ) : Creation ρ → Submission ρ
  | .lazy => { s with runner := .ready, dispatch := .binding }
  | .eager none => { s.enterRun with runner := .suspended, dispatch := .binding }
  | .eager (some e) => { s.enterRun with runner := .done e, dispatch := .binding }
  | .raises false error => { s with runner := .closed, dispatch := .failing error }
  | .raises true error => { s.enterRun with runner := .closed, dispatch := .failing error }

def startFailed (s : Submission ρ) (error : ρ) : Submission ρ :=
  if !s.started && !s.disposed then
    { s.popWork with startClaimed := false, dispatch := .dropping error }
  else { s with startClaimed := false, dispatch := .reporting error }

-- The section after a successful `create_task`, `add_done_callback` and the cancellation of a task whose
-- handle was cancelled meanwhile. Nothing else runs on the loop in between.
def bindTask (s : Submission ρ) : Submission ρ :=
  let s' := { s with task := true, startClaimed := false, dispatch := .bound }
  if s.handle.isCancelled then s'.cancelTask else s'

-- The first step of the task. A cancelled task never enters `run`.
def firstStep (s : Submission ρ) (e : Option (Ending ρ)) : Submission ρ :=
  if s.cancelRequested then { s with runner := .done .cancelled }
  else { s.enterRun with runner := e.elim .suspended .done }

def copyOutcome (s : Submission ρ) (e : Ending ρ) : Submission ρ :=
  if e.isCancelled && !s.started && !s.disposed then
    { s.popWork with task := false, copier := .disposing }
  else { s with work := false, task := false, copier := .publishing }

-- The events of `start_on_loop` come in a fixed order, which its control point gives; `c` says how
-- `create_task` ends where that is the next one.
def dispatchStep (s : Submission ρ) (c : Creation ρ) : Option (Submission ρ) :=
  match s.dispatch with
  | .queued => some s.startOnLoop
  | .skipping => some { s.dispose with dispatch := .skipped }
  | .creating => some (s.createTask c)
  | .failing error => some (s.startFailed error)
  | .dropping error => some { s.dispose with dispatch := .reporting error }
  | .reporting error => some { s.complete (.result error) with dispatch := .failed error }
  | .binding => some s.bindTask
  | _ => none

-- Only shutdown, which waits for `_shutdown_lock`, could cancel the handle before `submit` returns.
def step (s : Submission ρ) : Event ρ → Option (Submission ρ)
  | .accept accepted => if s.submitter = .admitting then some (s.accept accepted) else none
  | .schedule accepted => if s.submitter = .scheduling then some (s.schedule accepted) else none
  | .withdraw =>
    if s.submitter = .refused then
      some { s with disposed := true, work := false, submitter := .withdrawing }
    else none
  | .withdrawHandle =>
    if s.submitter = .withdrawing then some { s.complete .cancelled with submitter := .disposing } else none
  | .disposeRejected =>
    if s.submitter = .disposing then some { s.dispose with submitter := .raised } else none
  | .cancelHandle =>
    match s.submitter, s.handle with
    | .returned, .pending => some { s.complete .cancelled with cancelAccepted := true }
    | _, _ => none
  | .forward => if s.forwarder = .called then some s.forwardCancellation else none
  | .forwardEffect =>
    match s.forwarder with
    | .disposing => some { s.dispose with forwarder := .finished }
    | .sending => some { s with cancelScheduled := true, forwarder := .finished }
    | _ => none
  | .dispatch c => s.dispatchStep c
  | .runCancel =>
    if s.cancelScheduled then some { s.cancelTask with cancelScheduled := false } else none
  | .cancelTask => some s.cancelTask
  | .firstStep e =>
    match s.dispatch, s.runner with
    | .bound, .ready => some (s.firstStep e)
    | _, _ => none
  | .finish e =>
    match s.dispatch, s.runner with
    | .bound, .suspended => some { s with runner := .done e }
    | _, _ => none
  | .copy =>
    match s.dispatch, s.runner, s.copier with
    | .bound, .done e, .waiting => some (s.copyOutcome e)
    | _, _, _ => none
  | .copyDispose =>
    if s.copier = .disposing then some { s.dispose with copier := .publishing } else none
  | .publish =>
    match s.runner, s.copier with
    | .done e, .publishing => some { s.complete e with copier := .finished }
    | _, _ => none

-- Nothing of the submission is left to run: no thread in `submit`, no callback and no task.
def Quiescent (s : Submission ρ) : Prop :=
  (s.submitter = .raised ∨ s.submitter = .returned) ∧
  (s.dispatch = .unscheduled ∨ s.dispatch = .skipped ∨ (∃ error, s.dispatch = .failed error) ∨
    s.dispatch = .bound) ∧
  (s.runner = .absent ∨ s.runner = .closed ∨ ∃ e, s.runner = .done e ∧ s.copier = .finished) ∧
  (s.forwarder = .waiting ∨ s.forwarder = .finished) ∧ s.cancelScheduled = false

-- A bound on what is left to run: each party counts down to its end.
def remaining (s : Submission ρ) : Nat :=
  (match s.submitter with
    | .admitting => 5 | .scheduling => 4 | .refused => 3 | .withdrawing => 2 | .disposing => 1
    | .raised | .returned => 0) +
  (match s.dispatch with
    | .unscheduled => 8 | .queued => 7 | .creating => 6 | .failing _ | .binding => 5 | .dropping _ => 4
    | .reporting _ => 3 | .skipping => 1 | .skipped | .failed _ | .bound => 0) +
  (match s.runner with | .absent => 3 | .ready => 2 | .suspended => 1 | .done _ | .closed => 0) +
  (match s.copier with | .waiting => 3 | .disposing => 2 | .publishing => 1 | .finished => 0) +
  (match s.forwarder with | .waiting => 4 | .called => 3 | .sending => 2 | .disposing => 1 | .finished => 0) +
  s.cancelScheduled.toNat

-- How the work of the submission ended on the loop, or why it never ran.
def ending (s : Submission ρ) : Option (Ending ρ) :=
  match s.dispatch, s.runner with
  | .failed error, _ => some (.result error)
  | .bound, .done e => some e
  | _, _ => if s.submitter = .disposing ∨ s.submitter = .raised then some .cancelled else none

end Submission

end Aio
