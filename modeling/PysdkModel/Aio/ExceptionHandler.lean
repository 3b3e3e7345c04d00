import PysdkModel.Lib.Machine

-- The exception handler of a borrowed loop: `_StagedLoopExceptionHandler` and
-- `AsyncRuntime.set_borrowed_loop_exception_handler` in aio/_runtime.py. The callbacks of the loop run one at a time,
-- the callers wait for them on threads of their own.

namespace Aio

-- What a loop stores as its handler besides `None`, which stands for the loop's default handler. A staged handler is
-- known by its identity, which is its place in the order of installation.
inductive StoredHandler (α : Type*)
  | foreign (handler : α) -- set by somebody else
  | staged (i : Nat)

inductive HandlerStage
  | pending
  | committed
  | rolledBack
  deriving DecidableEq

-- The thread that called `set_borrowed_loop_exception_handler`.
inductive HandlerCaller
  | waiting
  | interrupted -- its `cancel_or_restore` has queued `restore`
  | finished
  deriving DecidableEq

structure StagedHandler (α : Type*) where
  handler : α
  stage : HandlerStage
  previousHandler : Option (StoredHandler α)
  caller : HandlerCaller

namespace StagedHandler

variable {α : Type*}

-- The last instruction of a caller that was not interrupted.
def commit (a : StagedHandler α) : StagedHandler α :=
  { a with stage := .committed, previousHandler := none, caller := .finished }

-- The first instruction of `restore`, which runs once for an interrupted caller.
def rollback (a : StagedHandler α) : StagedHandler α :=
  { a with stage := .rolledBack, caller := .finished }

def interrupt (a : StagedHandler α) : StagedHandler α :=
  { a with caller := .interrupted }

end StagedHandler

structure BorrowedLoop (α : Type*) where
  assignments : List (StagedHandler α) -- in the order of installation
  exceptionHandler : Option (StoredHandler α)
  restoring : Option Nat -- the assignment whose `restore` is between its two instructions

inductive HandlerEvent (α : Type*)
  | configure (handler : α) -- the callback that installs, or a caller on the loop's own thread
  | commit (i : Nat)
  | interrupt (i : Nat)
  | rollback (i : Nat)
  | restore

namespace BorrowedLoop

variable {α : Type*}

def initial (original : Option α) : BorrowedLoop α where
  assignments := []
  exceptionHandler := original.map .foreign
  restoring := none

-- The loop of `restorable_predecessor`. The fuel bounds the links that are followed.
def skipRolledBack (assignments : List (StagedHandler α)) :
    Nat → Option (StoredHandler α) → Option (StoredHandler α)
  | n + 1, some (.staged i) =>
    match assignments[i]? with
    | some a => if a.stage = .rolledBack then skipRolledBack assignments n a.previousHandler else some (.staged i)
    | none => some (.staged i)
  | _, current => current

def restorablePredecessor (s : BorrowedLoop α) (a : StagedHandler α) : Option (StoredHandler α) :=
  skipRolledBack s.assignments s.assignments.length a.previousHandler

-- Who handles a diagnostic that is reported now: `call_exception_handler` of the loop, and `__call__` if its handler
-- is a staged one. `none` is the default handler of the loop.
def recipient (s : BorrowedLoop α) : Option (StoredHandler α) :=
  match s.exceptionHandler with
  | some (.staged i) =>
    match s.assignments[i]? with
    | some a => if a.stage = .rolledBack then s.restorablePredecessor a else some (.staged i)
    | none => some (.staged i)
  | handler => handler

-- The handler that `restore` leaves for the rolled back assignment `i`: another one is not touched.
def afterRestoring (s : BorrowedLoop α) (i : Nat) : Option (StoredHandler α) :=
  match s.exceptionHandler, s.assignments[i]? with
  | some (.staged j), some a => if j = i then s.restorablePredecessor a else some (.staged j)
  | handler, _ => handler

def updateAssignment (s : BorrowedLoop α) (i : Nat) (caller : HandlerCaller)
    (update : StagedHandler α → StagedHandler α) : Option (BorrowedLoop α) :=
  match s.assignments[i]? with
  | some a => if a.caller = caller then some { s with assignments := s.assignments.set i (update a) } else none
  | none => none

def step (s : BorrowedLoop α) : HandlerEvent α → Option (BorrowedLoop α)
  | .configure handler =>
    if s.restoring = none then
      some { s with
        assignments := s.assignments ++ [⟨handler, .pending, s.exceptionHandler, .waiting⟩]
        exceptionHandler := some (.staged s.assignments.length) }
    else
      none
  | .commit i => s.updateAssignment i .waiting .commit
  | .interrupt i => s.updateAssignment i .waiting .interrupt
  | .rollback i =>
    if s.restoring = none then
      (s.updateAssignment i .interrupted .rollback).map ({ · with restoring := some i })
    else
      none
  -- The rest of `restore`, in the same callback as the rollback.
  | .restore =>
    match s.restoring with
    | some i => some { s with exceptionHandler := s.afterRestoring i, restoring := none }
    | none => none

-- The target is the most recently installed assignment that meets `p`, or else the handler that was there first.
inductive Latest (p : StagedHandler α → Prop) (s : BorrowedLoop α) (original : Option α) :
    Option (StoredHandler α) → Prop
  | staged {i : Nat} {a : StagedHandler α} :
    s.assignments[i]? = some a → p a → (∀ {k : Nat} {b}, i < k → s.assignments[k]? = some b → ¬p b) →
    Latest p s original (some (.staged i))
  | original :
    (∀ {k : Nat} {b}, s.assignments[k]? = some b → ¬p b) → Latest p s original (original.map .foreign)

structure Settled (s : BorrowedLoop α) : Prop where
  assignments : ∀ {i : Nat} {a}, s.assignments[i]? = some a → a.stage ≠ .pending
  restoring : s.restoring = none

end BorrowedLoop

end Aio
