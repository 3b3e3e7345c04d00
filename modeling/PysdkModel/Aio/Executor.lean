import PysdkModel.Lib.Machine
import Mathlib.Data.List.Basic

-- The executor of an owned runtime: `_WorkItem` and `DaemonThreadPoolExecutor` in aio/_runtime.py. The sections under
-- `_shutdown_lock` and the operations of the queue, of the semaphore and of the futures are atomic.

namespace Aio

inductive WorkFuture
  | pending
  | running
  | finished
  | cancelled (byShutdown : Bool)
  deriving DecidableEq

namespace WorkFuture

def isDone : WorkFuture → Bool
  | .pending | .running => false
  | .finished | .cancelled _ => true

def isStarted : WorkFuture → Bool
  | .pending | .cancelled _ => false
  | .running | .finished => true

end WorkFuture

-- The state of an accepted item's future. An exception of a done callback leaves the future only if it is not an
-- `Exception`: the others are logged by the future itself.
structure WorkItem where
  future : WorkFuture := .pending
  calls : Nat := 0 -- how often the function has been called
  callbackRaises : Bool := false -- a done callback raises such an exception

namespace WorkItem

def new : WorkItem := {}

-- `Future.cancel`, which calls the done callbacks if it cancels the future.
def cancel (byShutdown : Bool) (item : WorkItem) : WorkItem :=
  if item.future = .pending then { item with future := .cancelled byShutdown } else item

def cancelRaises (item : WorkItem) : Bool :=
  item.future = .pending && item.callbackRaises

def finish (item : WorkItem) : WorkItem :=
  { item with future := .finished }

def call (item : WorkItem) : WorkItem :=
  { item with future := .running, calls := item.calls + 1 }

end WorkItem

inductive Worker
  | waiting -- in `self._work_queue.get()`
  | holding (id : Nat) -- before `set_running_or_notify_cancel`
  | running (id : Nat) -- in the function
  | releasing (id : Nat) -- `run` has returned or raised
  | exited -- it has got a stop marker
  deriving DecidableEq

def Worker.item? : Worker → Option Nat
  | .holding id | .running id | .releasing id => some id
  | .waiting | .exited => none

structure DaemonExecutor where
  workQueue : List (Option Nat) -- `none` is a stop marker
  threads : List Worker
  items : List WorkItem -- all that were accepted
  idleSemaphore : Nat
  shutdown : Bool
  logged : Nat -- the exceptions that a worker has caught

inductive ExecutorEvent
  | submit
  | addRaisingCallback (id : Nat)
  | cancel (id : Nat) -- by the owner of the future
  | get (w : Nat)
  | start (w : Nat)
  | complete (w : Nat)
  | release (w : Nat)
  | shutdown (cancelFutures : Bool)
  deriving DecidableEq

namespace DaemonExecutor

def initial : DaemonExecutor where
  workQueue := []
  threads := []
  items := []
  idleSemaphore := 0
  shutdown := false
  logged := 0

def queued (s : DaemonExecutor) : List Nat :=
  s.workQueue.filterMap id

def markers (s : DaemonExecutor) : Nat :=
  s.workQueue.count none

def held (s : DaemonExecutor) : List Nat :=
  s.threads.filterMap Worker.item?

def live (s : DaemonExecutor) : Nat :=
  s.threads.countP (· ≠ .exited)

def unfinished (s : DaemonExecutor) : Nat :=
  s.items.countP (!·.future.isDone)

def submit (max : Nat) (s : DaemonExecutor) : DaemonExecutor :=
  let hasIdleWorker := 0 < s.idleSemaphore
  { s with
    idleSemaphore := s.idleSemaphore - 1
    threads := if ¬hasIdleWorker ∧ s.threads.length < max then s.threads ++ [.waiting] else s.threads
    items := s.items ++ [.new]
    workQueue := s.workQueue ++ [some s.items.length] }

structure Drained where
  items : List WorkItem
  workQueue : List (Option Nat)
  raised : Bool

-- The loop of `shutdown` that empties the queue. It ends early when a callback raises.
def drain (items : List WorkItem) : List (Option Nat) → Drained
  | [] => ⟨items, [], false⟩
  | none :: queue => drain items queue
  | some i :: queue =>
    if items[i]?.any WorkItem.cancelRaises then
      ⟨items.modify i (.cancel true), queue, true⟩
    else
      drain (items.modify i (.cancel true)) queue

def drained (cancelFutures : Bool) (s : DaemonExecutor) : Drained :=
  if cancelFutures then drain s.items s.workQueue else ⟨s.items, s.workQueue, false⟩

-- The stop markers that a shutdown puts into the queue. An exception that leaves the loop leaves the section before.
def posted (cancelFutures : Bool) (s : DaemonExecutor) : Nat :=
  if ¬(s.drained cancelFutures).raised ∧ (¬s.shutdown ∨ cancelFutures) then s.threads.length else 0

-- The section of `shutdown` under the lock.
def beginShutdown (cancelFutures : Bool) (s : DaemonExecutor) : DaemonExecutor :=
  { s with
    items := (s.drained cancelFutures).items
    workQueue := (s.drained cancelFutures).workQueue ++ List.replicate (s.posted cancelFutures) none
    shutdown := true }

def step (max : Nat) (s : DaemonExecutor) : ExecutorEvent → Option DaemonExecutor
  | .submit => if s.shutdown then none else some (s.submit max)
  | .addRaisingCallback id => some { s with items := s.items.modify id ({ · with callbackRaises := true }) }
  | .cancel id => some { s with items := s.items.modify id (.cancel false) }
  | .get w =>
    match s.threads[w]?, s.workQueue with
    | some .waiting, none :: queue => some { s with workQueue := queue, threads := s.threads.set w .exited }
    | some .waiting, some id :: queue => some { s with workQueue := queue, threads := s.threads.set w (.holding id) }
    | _, _ => none
  -- The first line of `_WorkItem.run`, which raises if the future is in an unexpected state.
  | .start w =>
    match s.threads[w]? with
    | some (.holding id) =>
      match s.items[id]? with
      | some item =>
        match item.future with
        | .pending =>
          some { s with items := s.items.set id item.call, threads := s.threads.set w (.running id) }
        | .cancelled _ => some { s with threads := s.threads.set w (.releasing id) }
        | .running | .finished =>
          some { s with threads := s.threads.set w (.releasing id), logged := s.logged + 1 }
      | none => none
    | _ => none
  -- The function returns or raises, the future is completed and calls its callbacks.
  | .complete w =>
    match s.threads[w]? with
    | some (.running id) =>
      match s.items[id]? with
      | some item =>
        some { s with
          items := s.items.set id item.finish
          threads := s.threads.set w (.releasing id)
          logged := if item.callbackRaises then s.logged + 1 else s.logged }
      | none => none
    | _ => none
  | .release w =>
    match s.threads[w]? with
    | some (.releasing _) =>
      some { s with idleSemaphore := s.idleSemaphore + 1, threads := s.threads.set w .waiting }
    | _ => none
  | .shutdown cancelFutures => some (s.beginShutdown cancelFutures)

def Quiet (max : Nat) (s : DaemonExecutor) : Prop :=
  ∀ w, s.step max (.get w) = none ∧ s.step max (.start w) = none ∧ s.step max (.complete w) = none ∧
    s.step max (.release w) = none

structure Sound (max : Nat) (s : DaemonExecutor) : Prop where
  bounded : s.threads.length ≤ max
  staffed : s.shutdown = false → s.unfinished ≤ s.threads.length ∨ s.threads.length = max
  once : ∀ item ∈ s.items, item.calls ≤ 1
  -- An accepted item waits in the queue, is with a worker, or has been run, unless its future was cancelled.
  kept : ∀ {id : Nat} {item}, s.items[id]? = some item →
    id ∈ s.queued ∨ id ∈ s.held ∨ item.calls = 1 ∨ ∃ byShutdown, item.future = .cancelled byShutdown
  settled : s.Quiet max → ∀ item ∈ s.items, item.future.isDone
  stopped : s.shutdown = true → s.live ≤ s.markers

-- A shutdown that cancels futures meets no callback that raises.
def Uninterrupted (s : DaemonExecutor) (e : ExecutorEvent) : Prop :=
  e = .shutdown true → ∀ id ∈ s.queued, s.items[id]?.any WorkItem.cancelRaises = false

instance (s : DaemonExecutor) (e : ExecutorEvent) : Decidable (Uninterrupted s e) :=
  inferInstanceAs (Decidable (e = .shutdown true → ∀ id ∈ s.queued, s.items[id]?.any WorkItem.cancelRaises = false))

def Patient (_ : DaemonExecutor) (e : ExecutorEvent) : Prop :=
  e ≠ .shutdown true

end DaemonExecutor

end Aio
