import PysdkModel.Lib.Machine
import PysdkModel.Lib.Dict
import Mathlib.Data.Finset.Basic

-- The collections in which `AsyncRuntime` of aio/_runtime.py keeps its submissions and tasks: who is put into them by
-- `_track_submission`, `submit_background`, `protect_current_submission`, `mark_current_submission_close_returning`,
-- `_run_awaitable` and `_cancel_task_once`, and who takes them out again. Handles and tasks are numbered in the order
-- in which they are created.

namespace Aio

-- The thread that submits. An untracked submission begins after its tracking, and one that is not in the background
-- ends before its listing.
inductive SubmitStage
  | admitted
  | added -- in `_submissions`; `_discard_submission` is registered next
  | tracked -- `call_soon_threadsafe(start_on_loop)` comes next, or nothing for a foreign future
  | scheduled -- `submit` has returned to `submit_background`
  | listed -- in `_background`; `_discard_background` is registered next
  | returned
  deriving DecidableEq

-- The future of a handle. While it is completing it is done, but its callbacks have still to run.
inductive HandleFuture
  | pending
  | completing (cancelled : Bool)
  | done (cancelled : Bool)

namespace HandleFuture

def isCancelled : HandleFuture → Bool
  | .pending => false
  | .completing c | .done c => c

def isPending : HandleFuture → Bool
  | .pending => true
  | .completing _ | .done _ => false

def isDone : HandleFuture → Bool
  | .done _ => true
  | .pending | .completing _ => false

end HandleFuture

inductive StartStage
  | unscheduled
  | queued
  | claimed -- `start_claimed` is set; `create_task` comes next
  | finished
  deriving DecidableEq

structure SdkHandle where
  track : Bool
  background : Bool
  bridged : Bool -- for a future of another loop
  stage : SubmitStage
  future : HandleFuture := .pending
  start : StartStage := .unscheduled
  discards : Bool := false -- `_discard_submission` is registered
  discardsBackground : Bool := false -- `_discard_background` is registered

inductive TaskPhase
  | created -- the first step is still to come
  | running
  | ended -- the task is done; its callbacks come next
  | settled
  deriving DecidableEq

structure SdkTask where
  submission : Nat -- the handle in `_current_submission`
  runner : Bool -- it runs `run` of `_submit_to_loop`; otherwise it is a child with that context
  protect : Bool := false -- `protect_task`
  phase : TaskPhase := .created
  mustCancel : Bool := false -- it was cancelled before its first step
  discards : Bool := false -- `_discard_protected_task` is registered

structure Bookkeeping where
  handles : List SdkHandle
  tasks : List SdkTask
  submissions : Finset Nat
  protectedSubmissions : Finset Nat
  closeReturning : Finset Nat
  background : Finset Nat
  activeTasks : Finset Nat
  protectedTasks : Finset Nat
  protectedCancelling : Finset Nat
  cancellationRequested : Finset Nat
  taskSubmissions : Dict Nat Nat

inductive BookEvent
  | accept (bridged track background : Bool)
  | add (h : Nat)
  | register (h : Nat)
  | schedule (h : Nat) (accepted : Bool)
  | list (h : Nat)
  | registerBackground (h : Nat)
  | cancelHandle (h : Nat)
  | completeBridge (h : Nat) (cancelled : Bool)
  | callbacks (h : Nat)
  | claim (h : Nat)
  | createFails (h : Nat)
  | bind (h : Nat)
  -- the tasks
  | spawn (h : Nat) -- code of the submission creates a child task
  | interrupt (t : Nat) -- somebody calls `task.cancel()` before the first step
  | firstStep (t : Nat)
  | finish (t : Nat)
  | settle (t : Nat) (cancelled : Bool)
  | protectSubmission (h : Nat)
  | protectTask (t : Nat) (cancelling : Bool)
  | markCancelling (t : Nat)
  | markReturning (h : Nat)
  | cancelReturning (t : Nat) (alreadyCancelling : Bool)
  -- `_cancel_task_once`, sent by a cancelled handle or called by `cancel_submissions`
  | cancelForwarded (t : Nat)
  | cancelActive (t : Nat)

namespace Bookkeeping

def initial : Bookkeeping where
  handles := []
  tasks := []
  submissions := ∅
  protectedSubmissions := ∅
  closeReturning := ∅
  background := ∅
  activeTasks := ∅
  protectedTasks := ∅
  protectedCancelling := ∅
  cancellationRequested := ∅
  taskSubmissions := ∅

def withHandle (s : Bookkeeping) (h : Nat) (p : SdkHandle → Bool) (f : SdkHandle → Bookkeeping) : Option Bookkeeping :=
  match s.handles[h]? with
  | some x => if p x then some (f x) else none
  | none => none

def withTask (s : Bookkeeping) (t : Nat) (p : SdkTask → Bool) (f : SdkTask → Bookkeeping) : Option Bookkeeping :=
  match s.tasks[t]? with
  | some x => if p x then some (f x) else none
  | none => none

def setHandle (s : Bookkeeping) (h : Nat) (x : SdkHandle) : Bookkeeping :=
  { s with handles := s.handles.set h x }

def setTask (s : Bookkeeping) (t : Nat) (x : SdkTask) : Bookkeeping :=
  { s with tasks := s.tasks.set t x }

def discardSubmission (s : Bookkeeping) (h : Nat) : Bookkeeping :=
  { s with
    submissions := s.submissions.erase h
    protectedSubmissions := s.protectedSubmissions.erase h
    closeReturning := s.closeReturning.erase h }

def discardBackground (s : Bookkeeping) (h : Nat) : Bookkeeping :=
  { s with background := s.background.erase h }

-- `future.cancel()`, `set_result` and `set_exception`: a future is completed once.
def complete (s : Bookkeeping) (h : Nat) (cancelled : Bool) : Bookkeeping :=
  match s.handles[h]? with
  | some x => if x.future.isPending then s.setHandle h { x with future := .completing cancelled } else s
  | none => s

def runCallbacks (s : Bookkeeping) (h : Nat) (x : SdkHandle) : Bookkeeping :=
  let s := s.setHandle h { x with future := .done x.future.isCancelled }
  let s := if x.discards then s.discardSubmission h else s
  if x.discardsBackground then s.discardBackground h else s

def cancelTaskOnce (s : Bookkeeping) (t : Nat) : Bookkeeping :=
  match s.tasks[t]? with
  | some x =>
    if x.phase = .ended ∨ x.phase = .settled ∨ t ∈ s.cancellationRequested then
      s
    else
      { s.setTask t { x with mustCancel := x.mustCancel || x.phase = .created } with
        cancellationRequested := insert t s.cancellationRequested }
  | none => s

def isCancelled (s : Bookkeeping) (h : Nat) : Bool :=
  s.handles[h]?.any (·.future.isCancelled)

def enterRunner (s : Bookkeeping) (t : Nat) (x : SdkTask) : Bookkeeping :=
  { s.setTask t { x with phase := .running } with
    activeTasks := insert t s.activeTasks
    taskSubmissions := s.taskSubmissions.set t x.submission
    protectedTasks := if x.protect then insert t s.protectedTasks else s.protectedTasks }

def leaveRunner (s : Bookkeeping) (t : Nat) (x : SdkTask) : Bookkeeping :=
  { s.setTask t { x with phase := .ended } with
    activeTasks := s.activeTasks.erase t
    protectedTasks := s.protectedTasks.erase t
    protectedCancelling := s.protectedCancelling.erase t
    taskSubmissions := s.taskSubmissions.erase t
    cancellationRequested := s.cancellationRequested.erase t }

def discardProtectedTask (s : Bookkeeping) (t : Nat) : Bookkeeping :=
  { s with
    protectedTasks := s.protectedTasks.erase t
    protectedCancelling := s.protectedCancelling.erase t }

-- The part of `protect_current_submission` about the current task.
def protectTask (s : Bookkeeping) (t : Nat) (x : SdkTask) (cancelling : Bool) : Bookkeeping :=
  let registers := t ∉ s.protectedTasks ∧ ¬s.taskSubmissions.contains t
  { s.setTask t { x with discards := x.discards || decide registers } with
    protectedTasks := insert t s.protectedTasks
    protectedCancelling := if cancelling then insert t s.protectedCancelling else s.protectedCancelling }

-- `_cancel_returning_task`. The task itself may know of an earlier cancellation.
def cancelReturningTask (s : Bookkeeping) (t : Nat) (x : SdkTask) (alreadyCancelling : Bool) : Bookkeeping :=
  if x.phase = .ended ∨ x.phase = .settled ∨ t ∉ s.protectedTasks then
    s
  else if t ∈ s.protectedCancelling ∨ t ∈ s.cancellationRequested ∨ alreadyCancelling ∨
      (s.taskSubmissions.get? t).any s.isCancelled then
    s
  else
    s.cancelTaskOnce t

def step (s : Bookkeeping) : BookEvent → Option Bookkeeping
  | .accept bridged track background =>
    some { s with handles := s.handles ++
      [{ track := track, background := background, bridged := bridged,
         stage := if track then .admitted else .tracked }] }
  | .add h =>
    s.withHandle h (·.stage = .admitted) fun x =>
      { s.setHandle h { x with stage := .added } with submissions := insert h s.submissions }
  -- A callback that is added to a future that is done runs at once.
  | .register h =>
    s.withHandle h (·.stage = .added) fun x =>
      if x.future.isPending then
        s.setHandle h { x with stage := .tracked, discards := true }
      else
        (s.setHandle h { x with stage := .tracked }).discardSubmission h
  | .schedule h accepted =>
    s.withHandle h (·.stage = .tracked) fun x =>
      if x.bridged ∨ accepted then
        s.setHandle h { x with
          stage := if x.background then .scheduled else .returned
          start := if x.bridged then .unscheduled else .queued }
      else
        (s.setHandle h { x with stage := .returned }).complete h true
  | .list h =>
    s.withHandle h (·.stage = .scheduled) fun x =>
      { s.setHandle h { x with stage := .listed } with background := insert h s.background }
  | .registerBackground h =>
    s.withHandle h (·.stage = .listed) fun x =>
      if x.future.isPending then
        s.setHandle h { x with stage := .returned, discardsBackground := true }
      else
        (s.setHandle h { x with stage := .returned }).discardBackground h
  | .cancelHandle h => s.withHandle h (·.future.isPending) fun _ => s.complete h true
  | .completeBridge h cancelled => s.withHandle h (·.bridged) fun _ => s.complete h cancelled
  | .callbacks h =>
    s.withHandle h (fun x => !x.future.isPending && !x.future.isDone) (s.runCallbacks h)
  | .claim h =>
    s.withHandle h (·.start = .queued) fun x =>
      s.setHandle h { x with start := if x.future.isCancelled then .finished else .claimed }
  | .createFails h =>
    s.withHandle h (·.start = .claimed) fun x => (s.setHandle h { x with start := .finished }).complete h false
  | .bind h =>
    s.withHandle h (·.start = .claimed) fun x =>
      let t := s.tasks.length
      let s := { s.setHandle h { x with start := .finished } with
        tasks := s.tasks ++ [{ submission := h, runner := true, protect := !x.track }] }
      if x.future.isCancelled then s.cancelTaskOnce t else s
  | .spawn h =>
    some { s with tasks := s.tasks ++ [{ submission := h, runner := false, phase := .running }] }
  | .interrupt t =>
    s.withTask t (·.phase = .created) fun x => s.setTask t { x with mustCancel := true }
  -- A coroutine that is cancelled before its first step does not run at all.
  | .firstStep t =>
    s.withTask t (fun x => x.runner && x.phase = .created) fun x =>
      if x.mustCancel then s.setTask t { x with phase := .ended } else s.enterRunner t x
  | .finish t =>
    s.withTask t (·.phase = .running) fun x =>
      if x.runner then s.leaveRunner t x else s.setTask t { x with phase := .ended }
  -- `copy_outcome`, or `_discard_protected_task`.
  | .settle t cancelled =>
    s.withTask t (·.phase = .ended) fun x =>
      let s := s.setTask t { x with phase := .settled }
      let s := if x.discards then s.discardProtectedTask t else s
      if x.runner then s.complete x.submission cancelled else s
  | .protectSubmission h =>
    some (if h ∈ s.submissions then { s with protectedSubmissions := insert h s.protectedSubmissions } else s)
  | .protectTask t cancelling => s.withTask t (·.phase = .running) fun x => s.protectTask t x cancelling
  | .markCancelling t =>
    s.withTask t (·.phase = .running) fun _ =>
      if t ∈ s.protectedTasks then { s with protectedCancelling := insert t s.protectedCancelling } else s
  | .markReturning h =>
    some (if h ∈ s.protectedSubmissions then { s with closeReturning := insert h s.closeReturning } else s)
  | .cancelReturning t alreadyCancelling => s.withTask t (fun _ => true) (s.cancelReturningTask t · alreadyCancelling)
  -- The loop has queued it behind the first step of the task.
  | .cancelForwarded t =>
    s.withTask t (fun x => x.runner && x.phase ≠ .created && s.isCancelled x.submission) fun _ => s.cancelTaskOnce t
  | .cancelActive t =>
    if t ∈ s.activeTasks ∧ t ∉ s.protectedTasks then some (s.cancelTaskOnce t) else none

structure Idle (s : Bookkeeping) : Prop where
  handles : ∀ x ∈ s.handles, x.stage = .returned ∧ x.future.isDone = true
  tasks : ∀ x ∈ s.tasks, x.phase = .settled

structure Empty (s : Bookkeeping) : Prop where
  submissions : s.submissions = ∅
  protectedSubmissions : s.protectedSubmissions = ∅
  closeReturning : s.closeReturning = ∅
  background : s.background = ∅
  activeTasks : s.activeTasks = ∅
  protectedTasks : s.protectedTasks = ∅
  protectedCancelling : s.protectedCancelling = ∅
  cancellationRequested : s.cancellationRequested = ∅
  taskSubmissions : s.taskSubmissions.isEmpty = true

-- A handle is not cancelled while `start_on_loop` creates its task, and a close caller that is cancelled because it
-- goes on after its close runs in a task of the runtime.
def isTimely (s : Bookkeeping) : BookEvent → Bool
  | .bind h => !s.isCancelled h
  | .cancelReturning t alreadyCancelling => alreadyCancelling || t ∈ s.activeTasks
  | _ => true

def Timely (s : Bookkeeping) (e : BookEvent) : Prop :=
  s.isTimely e = true

instance (s : Bookkeeping) (e : BookEvent) : Decidable (Timely s e) :=
  inferInstanceAs (Decidable (s.isTimely e = true))

end Bookkeeping

end Aio
