import PysdkModel.Aio.Submission

-- `AsyncRuntime` of aio/_runtime.py while it closes: the submissions of a runtime, the queue of callbacks of
-- its event loop and `cancel_submissions`. The loop runs its callbacks one after the other, in the order in
-- which they were queued. No submission is protected. One call of `cancel_submissions` runs at a time; what another
-- one would do to the submissions are events `requestCancel`, `thread` and `completeBridge`.

namespace Aio

namespace AsyncRuntime

-- The callbacks that the loop has queued, each with the number of its submission.
inductive Job
  | dispatch (i : Nat) -- `start_on_loop`
  | step (i : Nat) -- a step of the task
  | cancelOnce (i : Nat) -- `_cancel_task_once` that `forward_cancellation` has sent
  | copy (i : Nat) -- `copy_outcome`, a callback of the task
  | gathered (i : Nat) -- the callback that `gather` has added to the task
  | closer -- a step of the task that runs `cancel_submissions`
  deriving DecidableEq

-- The points at which `cancel_submissions` gives control back to the loop.
inductive Closer
  | idle -- it has not been called
  | starting
  | draining (waiting : List Nat) -- in the first `gather`
  | drained
  | yielded -- in the first `sleep(0)`
  | cancelling (handles : List Nat) -- in the loop over the snapshot of the handles
  | yieldedAgain -- in the second `sleep(0)`
  | finishing (waiting : List Nat) -- in the second `gather`
  | finished
  | returned
  deriving DecidableEq

def Closer.waiting : Closer → List Nat
  | .draining w | .finishing w => w
  | _ => []

-- A submission, whether its task is in `_task_cancellation_requested`, and how often the runtime has
-- called `task.cancel()`.
structure Entry (ρ : Type) where
  sub : Submission ρ
  requested : Bool
  cancels : Nat

end AsyncRuntime

open AsyncRuntime in
structure AsyncRuntime (ρ : Type) where
  count : Nat -- of the submissions that were admitted
  entries : Nat → Entry ρ
  -- the handles of futures of other loops, with their outcomes
  bridges : List (Option (Ending ρ))
  ready : List Job
  accepting : Bool -- `_accepting`
  admitting : Option Nat -- the submission whose thread holds `_shutdown_lock`
  closer : Closer

namespace AsyncRuntime

open Submission (Creation)

variable {ρ : Type}

def initial : AsyncRuntime ρ where
  count := 0
  entries _ := { sub := .initial, requested := false, cancels := 0 }
  bridges := []
  ready := []
  accepting := true
  admitting := none
  closer := .idle

def sub (r : AsyncRuntime ρ) (i : Nat) : Submission ρ :=
  (r.entries i).sub

def taskDone (s : Submission ρ) : Bool :=
  match s.runner with
  | .done _ => true
  | _ => false

-- The callback `start_on_loop` has come to its end.
def dispatchEnded (s : Submission ρ) : Bool :=
  match s.dispatch with
  | .skipped | .failed _ | .bound => true
  | _ => false

def Entry.cancelOnce (e : Entry ρ) : Entry ρ :=
  if taskDone e.sub || e.requested then
    e
  else
    { sub := e.sub.cancelTask, requested := true, cancels := e.cancels + 1 }

def setEntry (r : AsyncRuntime ρ) (i : Nat) (e : Entry ρ) : AsyncRuntime ρ :=
  { r with entries := Function.update r.entries i e }

def setSub (r : AsyncRuntime ρ) (i : Nat) (s : Submission ρ) : AsyncRuntime ρ :=
  r.setEntry i { r.entries i with sub := s }

def enqueue (r : AsyncRuntime ρ) (jobs : List Job) : AsyncRuntime ρ :=
  { r with ready := r.ready ++ jobs }

-- The task is in `_active_tasks`: it has entered `_run_awaitable` and not left it.
def isActive (s : Submission ρ) : Bool :=
  match s.runner with
  | .suspended => true
  | _ => false

-- The handle is in `_submissions` and not done.
def isPending : Handle ρ → Bool
  | .pending => true
  | _ => false

def active (r : AsyncRuntime ρ) : List Nat :=
  (List.range r.count).filter fun i => isActive (r.sub i)

def pending (r : AsyncRuntime ρ) : List Nat :=
  (List.range r.count).filter fun i => isPending (r.sub i).handle

-- `bridged.cancel()`
def cancelBridge : Option (Ending ρ) → Option (Ending ρ)
  | none => some .cancelled
  | some e => some e

-- `submitted.cancel()` in `cancel_submissions`, which also runs `forward_cancellation`. Nothing else can happen
-- to the submission meanwhile, since its handle is done and the loop is busy.
def cancelSubmitted (r : AsyncRuntime ρ) (i : Nat) : AsyncRuntime ρ :=
  if isPending (r.sub i).handle then
    let s := { (r.sub i).complete .cancelled with cancelAccepted := true }.forwardCancellation
    match s.forwarder with
    | .disposing => r.setSub i { s.dispose with forwarder := .finished }
    | .sending =>
      (r.setSub i { s with cancelScheduled := true, forwarder := .finished }).enqueue [.cancelOnce i]
    | _ => r.setSub i s
  else
    r

inductive Event (ρ : Type)
  | submit -- a thread in `submit` is admitted
  | bridge -- and one with a future of another loop
  | thread (i : Nat) (a : Submission.Event ρ) -- what threads do to a submission, see `byThread`
  | completeBridge (i : Nat) (e : Ending ρ)
  | requestCancel (i : Nat) -- `_cancel_task_once` by other code on the loop
  | wake (i : Nat) -- what a suspended task waits for has happened
  | beginClose
  | close -- `cancel_submissions` is called
  -- the next event of the callback at the head of the queue
  | turn (c : Creation ρ) (e : Option (Ending ρ))
  | cancelNext (i : Nat) -- the loop over the handles comes to this one

-- The events of a submission that do not belong to the loop.
def byThread : Submission.Event ρ → Bool
  | .schedule _ | .withdraw | .withdrawHandle | .disposeRejected => true
  | .cancelHandle | .forward | .forwardEffect => true
  | _ => false

-- What an event of a thread puts into the queue.
def threadJobs (i : Nat) (s : Submission ρ) : Submission.Event ρ → List Job
  | .schedule true => [.dispatch i]
  | .forwardEffect => match s.forwarder with
    | .sending => [.cancelOnce i]
    | _ => []
  | _ => []

-- `_shutdown_lock` is released when `call_soon_threadsafe` has returned, or at the end of its `except` clause.
def releases : Submission.Event ρ → Bool
  | .schedule true | .withdrawHandle => true
  | _ => false

def threadStep (r : AsyncRuntime ρ) (i : Nat) (a : Submission.Event ρ) : Option (AsyncRuntime ρ) :=
  match (r.sub i).step a with
  | none => none
  | some s => some
    { (r.setSub i s).enqueue (threadJobs i (r.sub i) a) with
      admitting := if releases a then none else r.admitting }

-- What an event of `start_on_loop` puts into the queue: the first step of a new task, and the callback of a
-- task that an eager factory has run to its end.
def dispatchJobs (i : Nat) (s t : Submission ρ) : List Job :=
  match s.dispatch, t.runner with
  | .creating, .ready => [.step i]
  | .binding, .done _ => [.copy i]
  | _, _ => []

-- A task whose handle was cancelled meanwhile is cancelled as soon as it is stored.
def dispatchEntry (e : Entry ρ) : Entry ρ :=
  match e.sub.dispatch with
  | .binding => if e.sub.handle.isCancelled then e.cancelOnce else e
  | _ => e

def dispatchTurn (r : AsyncRuntime ρ) (i : Nat) (rest : List Job) (c : Creation ρ) : Option (AsyncRuntime ρ) :=
  match (r.sub i).step (.dispatch c) with
  | none => none
  | some s => some
    { r.setEntry i { dispatchEntry (r.entries i) with sub := s } with
      ready := (if dispatchEnded s then rest else .dispatch i :: rest) ++ dispatchJobs i (r.sub i) s }

-- The callbacks of a task that has ended.
def callbacks (r : AsyncRuntime ρ) (i : Nat) : List Job :=
  if i ∈ r.closer.waiting then [.copy i, .gathered i] else [.copy i]

-- A task that has entered `_run_awaitable` is removed from `_task_cancellation_requested` when it leaves it.
def endTask (r : AsyncRuntime ρ) (i : Nat) (rest : List Job) (s : Submission ρ) : AsyncRuntime ρ :=
  { r.setEntry i { r.entries i with sub := s, requested := (r.entries i).requested && !s.started } with
    ready := rest ++ r.callbacks i }

def stepTurn (r : AsyncRuntime ρ) (i : Nat) (rest : List Job) (e : Option (Ending ρ)) : Option (AsyncRuntime ρ) :=
  match (r.sub i).runner, e with
  | .ready, _ =>
    match (r.sub i).step (.firstStep e) with
    | none => none
    | some s => some (if taskDone s then r.endTask i rest s else { r.setSub i s with ready := rest })
  | .suspended, none => some { r with ready := rest }
  | .suspended, some e => ((r.sub i).step (.finish e)).map (r.endTask i rest)
  | _, _ => none

def cancelOnceTurn (r : AsyncRuntime ρ) (i : Nat) (rest : List Job) : AsyncRuntime ρ :=
  let e := (r.entries i).cancelOnce
  { r.setEntry i { e with sub := { e.sub with cancelScheduled := false } } with ready := rest }

-- The next event of `copy_outcome`.
def copyTurn (r : AsyncRuntime ρ) (i : Nat) (rest : List Job) : Option (AsyncRuntime ρ) :=
  match (r.sub i).copier with
  | .waiting => ((r.sub i).step .copy).map (r.setSub i ·)
  | .disposing => ((r.sub i).step .copyDispose).map (r.setSub i ·)
  | .publishing => ((r.sub i).step .publish).map fun s => { r.setSub i s with ready := rest }
  | .finished => none

def gatheredTurn (r : AsyncRuntime ρ) (i : Nat) (rest : List Job) : AsyncRuntime ρ :=
  match r.closer with
  | .draining w =>
    if w.erase i = [] then { r with ready := rest ++ [.closer], closer := .drained }
    else { r with ready := rest, closer := .draining (w.erase i) }
  | .finishing w =>
    if w.erase i = [] then { r with ready := rest ++ [.closer], closer := .finished }
    else { r with ready := rest, closer := .finishing (w.erase i) }
  | _ => { r with ready := rest }

def cancelActive (r : AsyncRuntime ρ) : AsyncRuntime ρ :=
  { r with entries := fun i => if i ∈ r.active then (r.entries i).cancelOnce else r.entries i }

-- `cancel_submissions` up to the next point at which it gives control back.
def closerTurn (r : AsyncRuntime ρ) (rest : List Job) : Option (AsyncRuntime ρ) :=
  match r.closer with
  | .starting =>
    if r.active = [] then some { r with ready := rest ++ [.closer], closer := .yielded }
    else some { r.cancelActive with ready := rest, closer := .draining r.active }
  | .drained => some { r with ready := rest ++ [.closer], closer := .yielded }
  | .yielded => some { r with bridges := r.bridges.map cancelBridge, closer := .cancelling r.pending }
  | .cancelling [] => some { r with ready := rest ++ [.closer], closer := .yieldedAgain }
  | .yieldedAgain =>
    if r.active = [] then some { r with ready := rest, closer := .returned }
    else some { r with ready := rest, closer := .finishing r.active }
  | .finished => some { r with ready := rest, closer := .returned }
  | _ => none

def turn (r : AsyncRuntime ρ) (c : Creation ρ) (e : Option (Ending ρ)) : Option (AsyncRuntime ρ) :=
  match r.ready with
  | [] => none
  | .dispatch i :: rest => r.dispatchTurn i rest c
  | .step i :: rest => r.stepTurn i rest e
  | .cancelOnce i :: rest => some (r.cancelOnceTurn i rest)
  | .copy i :: rest => r.copyTurn i rest
  | .gathered i :: rest => some (r.gatheredTurn i rest)
  | .closer :: rest => r.closerTurn rest

def admitted : Entry ρ where
  sub := Submission.initial.accept true
  requested := false
  cancels := 0

def step (r : AsyncRuntime ρ) : Event ρ → Option (AsyncRuntime ρ)
  | .submit =>
    if r.accepting ∧ r.admitting = none then
      some { r.setEntry r.count admitted with count := r.count + 1, admitting := some r.count }
    else none
  | .bridge =>
    if r.accepting ∧ r.admitting = none then some { r with bridges := r.bridges ++ [none] } else none
  | .thread i a => if i < r.count ∧ byThread a then r.threadStep i a else none
  | .completeBridge i e =>
    match r.bridges[i]? with
    | some none => some { r with bridges := r.bridges.set i (some e) }
    | _ => none
  | .requestCancel i =>
    if i < r.count ∧ (r.sub i).dispatch matches .bound then some (r.setEntry i (r.entries i).cancelOnce)
    else none
  | .wake i =>
    if i < r.count ∧ isActive (r.sub i) ∧ .step i ∉ r.ready then some (r.enqueue [.step i]) else none
  | .beginClose => if r.admitting = none then some { r with accepting := false } else none
  | .close =>
    if r.accepting = false ∧ (r.closer = .idle ∨ r.closer = .returned) then
      some { r.enqueue [.closer] with closer := .starting }
    else none
  | .turn c e => r.turn c e
  | .cancelNext i =>
    match r.closer with
    | .cancelling is =>
      if i ∈ is then some { r.cancelSubmitted i with closer := .cancelling (is.erase i) } else none
    | _ => none

end AsyncRuntime

end Aio
