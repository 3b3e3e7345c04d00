import Mathlib.Algebra.GroupWithZero.Nat
import PysdkModel.Lib.Machine

-- The waiters of a `CrossLoopAwaitable`: its registry, `_wait`, `_wait_shielded` and `_publish_cross_loop_waiter` in
-- aio/_runtime.py. Each section under `_waiters_lock` is one event, and so is each callback of a loop. The loops keep
-- running, and the exceptions are those that an asyncio future can hold.

namespace Aio

inductive SharedOutcome (ρ ε : Type*)
  | result (r : ρ)
  | exception (e : ε)
  | cancelled

inductive Relay (ρ ε : Type*)
  | pending
  | copied (o : SharedOutcome ρ ε) -- by `publish`
  | cancelled -- by the cancellation of the waiter

inductive WaitPhase
  | publishing -- the shared future was done; `_publish_cross_loop_waiter` comes next
  | awaiting -- in `await relay`
  | leaving -- the `finally` of `_wait_shielded` comes next
  | cancelling -- `self.cancel()` of `_wait` comes next
  | returned
  deriving DecidableEq

structure LoopWaiter (ρ ε : Type*) where
  shielded : Bool -- it awaits `_wait_shielded` and not `_wait`
  phase : WaitPhase
  relay : Relay ρ ε := .pending
  queued : Nat := 0 -- the calls of `publish` in the queue of its loop
  cancelRequested : Bool := false -- its task has been cancelled
  copies : Nat := 0 -- how often an outcome was copied to the relay

namespace LoopWaiter

variable {ρ ε : Type*}

def raisesCancelled (x : LoopWaiter ρ ε) : Bool :=
  x.cancelRequested || match x.relay with | .copied .cancelled => true | _ => false

def publish (o : SharedOutcome ρ ε) (x : LoopWaiter ρ ε) : LoopWaiter ρ ε :=
  match x.relay with
  | .pending => { x with queued := x.queued - 1, relay := .copied o, copies := x.copies + 1 }
  | .copied _ | .cancelled => { x with queued := x.queued - 1 }

-- `Task.cancel`, which cancels a relay that is still pending and is remembered by the task otherwise.
def cancel (x : LoopWaiter ρ ε) : LoopWaiter ρ ε :=
  match x.relay with
  | .pending => { x with cancelRequested := true, relay := .cancelled }
  | .copied _ | .cancelled => { x with cancelRequested := true }

-- A bound on its own events and the calls of `publish` in its queue.
def remaining (x : LoopWaiter ρ ε) : Nat :=
  (match x.phase with | .publishing => 5 | .awaiting => 3 | .leaving => 2 | .cancelling => 1 | .returned => 0) +
  x.queued

-- The end of the `finally`: only a direct waiter passes its cancellation on.
def leave (x : LoopWaiter ρ ε) : LoopWaiter ρ ε :=
  { x with phase := if !x.shielded && x.raisesCancelled then .cancelling else .returned }

end LoopWaiter

-- `publish_waiters`, which runs on the thread that completes the shared future.
inductive Publisher
  | idle
  | detaching
  | publishing (destinations : List Nat)

def Publisher.destinations : Publisher → List Nat
  | .publishing ds => ds
  | .idle | .detaching => []

def Publisher.remaining (registered : Nat) : Publisher → Nat
  | .idle => 2 * registered + 2
  | .detaching => 2 * registered + 1
  | .publishing ds => 2 * ds.length

structure SharedHandle (ρ ε : Type*) where
  future : Option (SharedOutcome ρ ε)
  publisher : Publisher
  registry : List Nat -- the keys of `_waiters`
  waiters : List (LoopWaiter ρ ε) -- all that have started

inductive HandleEvent (ρ ε : Type*)
  | complete (o : SharedOutcome ρ ε)
  | start (shielded : Bool)
  | publishOwn (w : Nat)
  | detach
  | publishNext
  | deliver (w : Nat)
  | cancel (w : Nat)
  | wake (w : Nat)
  | leave (w : Nat)
  | abort (w : Nat)

def HandleEvent.isInternal {ρ ε : Type*} : HandleEvent ρ ε → Bool
  | .complete _ | .start _ | .cancel _ => false
  | _ => true

namespace SharedHandle

variable {ρ ε : Type*}

def initial : SharedHandle ρ ε where
  future := none
  publisher := .idle
  registry := []
  waiters := []

-- A future can be completed once. Its done callback runs next.
def complete (o : SharedOutcome ρ ε) (s : SharedHandle ρ ε) : SharedHandle ρ ε :=
  match s.future with
  | none => { s with future := some o, publisher := .detaching }
  | some _ => s

def advance (s : SharedHandle ρ ε) (w : Nat) (phase : WaitPhase) (f : LoopWaiter ρ ε → LoopWaiter ρ ε) :
    Option (SharedHandle ρ ε) :=
  match s.waiters[w]? with
  | some x => if x.phase = phase then some { s with waiters := s.waiters.set w (f x) } else none
  | none => none

def step (s : SharedHandle ρ ε) : HandleEvent ρ ε → Option (SharedHandle ρ ε)
  | .complete o => if s.future.isNone then some (s.complete o) else none
  -- The first section of `_wait_shielded`.
  | .start shielded =>
    match s.future with
    | none => some { s with
        registry := s.registry ++ [s.waiters.length]
        waiters := s.waiters ++ [{ shielded := shielded, phase := .awaiting }] }
    | some _ => some { s with waiters := s.waiters ++ [{ shielded := shielded, phase := .publishing }] }
  | .publishOwn w => s.advance w .publishing fun x => { x with phase := .awaiting, queued := x.queued + 1 }
  | .detach =>
    match s.publisher with
    | .detaching => some { s with publisher := .publishing s.registry, registry := [] }
    | _ => none
  | .publishNext =>
    match s.publisher with
    | .publishing (w :: ds) => some { s with
        publisher := .publishing ds
        waiters := s.waiters.modify w fun x => { x with queued := x.queued + 1 } }
    | _ => none
  | .deliver w =>
    match s.waiters[w]?, s.future with
    | some x, some o => if 0 < x.queued then some { s with waiters := s.waiters.set w (x.publish o) } else none
    | _, _ => none
  | .cancel w => s.advance w .awaiting .cancel
  | .wake w =>
    match s.waiters[w]? with
    | some x =>
      match x.phase, x.relay with
      | .awaiting, .copied _ => some { s with waiters := s.waiters.set w { x with phase := .leaving } }
      | .awaiting, .cancelled => some { s with waiters := s.waiters.set w { x with phase := .leaving } }
      | _, _ => none
    | none => none
  | .leave w => (s.advance w .leaving .leave).map fun t => { t with registry := t.registry.filter (· ≠ w) }
  | .abort w => (s.advance w .cancelling ({ · with phase := .returned })).map (complete .cancelled)

def remaining (s : SharedHandle ρ ε) : Nat :=
  s.publisher.remaining s.registry.length + (s.waiters.map LoopWaiter.remaining).sum

def Quiet (s : SharedHandle ρ ε) : Prop :=
  ∀ e : HandleEvent ρ ε, e.isInternal = true → s.step e = none

structure Broadcasts (s : SharedHandle ρ ε) : Prop where
  -- A waiter that was not cancelled receives the shared outcome.
  received : ∀ {w : Nat} {x}, s.waiters[w]? = some x → x.phase = .returned → x.cancelRequested = false →
    ∃ o, s.future = some o ∧ x.relay = .copied o ∧ x.copies = 1
  once : ∀ {w : Nat} {x}, s.waiters[w]? = some x → x.copies ≤ 1
  -- Everything comes to rest, and when it has after the completion, every waiter has returned.
  ends : ∀ {e t}, e.isInternal = true → s.step e = some t → t.remaining < s.remaining
  answered : s.future.isSome = true → s.Quiet → ∀ x ∈ s.waiters, x.phase = .returned
  -- A direct waiter that was cancelled leaves no shared future that is pending.
  aborted : ∀ {w : Nat} {x}, s.waiters[w]? = some x → x.phase = .returned → x.shielded = false →
    x.cancelRequested = true → s.future.isSome = true
  released : s.future.isSome = true → (∀ x ∈ s.waiters, x.phase = .returned) → s.registry = []

end SharedHandle

end Aio
