import PysdkModel.Lib.Machine

-- The life of one `StreamRequest` of aio/stream.py on an SDK channel. The steps on the SDK loop are the sections under
-- `_state_lock` and the awaits. While a coroutine is between two awaits no other coroutine of the loop runs, but other
-- threads may take the state lock between two sections. A call of the release hook is part of the section that claims
-- it. Clocks, authentication, routing and the native call are seen through what comes out of them.

namespace Aio

structure StreamShape where
  clientStreaming : Bool
  serverStreaming : Bool
  requestGiven : Bool -- `self._request is not None`
  deriving DecidableEq

structure StreamLease where
  releases : Nat := 0
  due : Bool := false -- whether it was held when a start failed, a response was the last or the stream was aborted
  deriving DecidableEq

structure NativeCall where
  late : Bool -- whether it was opened after a cancellation took effect on the SDK loop
  cancelled : Bool := false
  deriving DecidableEq

-- The attributes of the stream, and all leases and native calls that it ever had.
structure StreamShared where
  shape : StreamShape
  leases : List StreamLease
  calls : List NativeCall := []
  addressChannel : Option Nat
  call : Option Nat := none
  iterator : Bool := false
  startEntered : Bool := false
  startError : Bool := false
  cancelEvent : Bool := false
  cancelRequested : Bool := false
  cancelled : Bool := false
  nativeTerminal : Bool := false
  released : Bool := false
  effective : Bool := false -- whether a cancellation has taken effect on the SDK loop
  deriving DecidableEq

-- What runs on the SDK loop.
inductive StreamWork
  | result -- `_result_internal`
  | next -- `_next_response`
  | write -- `_write` and `_done_writing`
  | close -- the `_aclose` of `aclose` and of the end of an iteration
  | cancelClose -- the `_aclose` that `cancel` submits
  | abort -- `abort_after_rejection`
  deriving DecidableEq

inductive StreamPhase
  | queued
  | entering -- at the first section of `_start`
  | waiting -- in `async with self._start_lock`
  | authenticating -- in the first `await` of `_authenticate`
  | gathering (ok : Bool) -- in the awaits that follow
  | verifying -- at the second `_is_cancelled()`
  | leasing -- at `address_channel = self._address_channel`
  | leased (l : Nat) -- at the publication of a new lease
  | dispatching -- at `multi(...)`
  | opened (c : Nat) -- at the publication of a new call
  | refusing -- in a handler that stores `_start_error`
  | inCall -- in an await of the native call
  | aborting -- at `_abort()`
  | releasing (again : Bool)
  | raised -- ended with an error, which is not yet observed
  | ended
  deriving DecidableEq

structure StreamTask where
  work : StreamWork
  phase : StreamPhase := .queued
  deriving DecidableEq

-- The code that runs in a caller of `cancel`, or in a caller whose submission was rejected.
inductive StreamCaller
  | submitting -- `cancel` at `submit(closing)`
  | cancelReleasing -- its handler at `_release`
  | restoring -- at `self._cancel_requested = False`
  | checking (terminate : Bool) -- `cleanup_if_unstarted` at its section under the state lock
  | scheduling
  | cleanupReleasing -- at `_release_soon`
  | returned
  deriving DecidableEq

structure StreamState where
  shared : StreamShared
  startLock : Option Nat := none
  active : Option Nat := none -- the task that is between two awaits
  tasks : List StreamTask := []
  callers : List StreamCaller := []
  deriving DecidableEq

inductive StreamOutcome
  | ok
  | error -- an exception
  | cancelled -- a `CancelledError` at an await
  | suspends -- authentication that has to wait
  | last -- the result, or the end of the responses
  | late -- the deadline for the dispatch
  deriving DecidableEq

inductive StreamEvent
  | submit (work : StreamWork)
  | reject (work : StreamWork)
  | drop (i : Nat) (rejected : Bool) -- an operation that is cancelled, or rejected, before it starts
  | observe (i : Nat) -- `_cancel_submission_finished` with an error
  | run (i : Nat) (o : StreamOutcome)
  | cancel
  | call (k : Nat) (choice : Bool)
  | nativeDone

namespace StreamPhase

def isRunning : StreamPhase → Bool
  | entering | verifying | leasing | leased _ | dispatching | opened _ | refusing | aborting | releasing _ => true
  | queued | waiting | authenticating | gathering _ | inCall | raised | ended => false

def holdsLock : StreamPhase → Bool
  | authenticating | gathering _ | verifying | leasing | leased _ | dispatching | opened _ | refusing => true
  | queued | entering | waiting | inCall | aborting | releasing _ | raised | ended => false

end StreamPhase

namespace StreamShared

def isCancelled (sh : StreamShared) : Bool :=
  sh.cancelRequested || sh.cancelled

-- `publish_address` and `publish_call`
def publishes (sh : StreamShared) : Bool :=
  !sh.cancelRequested && !sh.cancelled && !sh.released

-- From here on the lease of the stream has to be released.
def owe (sh : StreamShared) : StreamShared :=
  match sh.addressChannel with
  | none => sh
  | some l => { sh with leases := sh.leases.modify l ({ · with due := true }) }

-- `_release` and `_release_soon`
def release (sh : StreamShared) : StreamShared :=
  match sh.addressChannel with
  | none => sh
  | some l =>
    if sh.released then sh
    else { sh with released := true, leases := sh.leases.modify l (fun x => { x with releases := x.releases + 1 }) }

-- The section of `_abort` and what follows up to `_release`.
def abort (sh : StreamShared) : StreamShared :=
  { sh with
    cancelled := true
    cancelEvent := true
    effective := true
    calls := sh.call.elim sh.calls (sh.calls.modify · ({ · with cancelled := true })) }.owe

-- The section of `start_operation` for a stream whose deadline has passed.
def expire (sh : StreamShared) : StreamShared :=
  { sh with cancelRequested := true, cancelled := true, effective := true }.owe

-- The lease of `get_channel_by_route`.
def acquire (sh : StreamShared) : StreamShared :=
  { sh with leases := sh.leases ++ [{}] }

-- `release_address_channel` for a lease that is not published
def giveBack (sh : StreamShared) (l : Nat) : StreamShared :=
  { sh with leases := sh.leases.modify l (fun x => ⟨x.releases + 1, true⟩) }

-- `multi(...)`
def openCall (sh : StreamShared) : StreamShared :=
  { sh with calls := sh.calls ++ [{ late := sh.effective }] }

def cancelCall (sh : StreamShared) (c : Nat) : StreamShared :=
  { sh with calls := sh.calls.modify c ({ · with cancelled := true }) }

-- `_cancel_submission_finished` with an error
def cancelSubmissionFailed (sh : StreamShared) : StreamShared :=
  if sh.released then sh else { sh with cancelRequested := false, cancelled := false }

-- An operation gets the call from `_start`.
def use (sh : StreamShared) (work : StreamWork) : StreamShared × StreamPhase :=
  ({ sh with iterator := sh.iterator || work = .next }, .inCall)

-- The first steps of an operation, in `start_operation` where it is one of a caller.
def begin (sh : StreamShared) : StreamWork → StreamOutcome → Option (StreamShared × StreamPhase)
  | .cancelClose, .ok => some (sh, .aborting)
  | .cancelClose, _ => none
  | .abort, .ok => some (sh, .aborting)
  | .abort, _ => none
  | _, .late => some (sh.expire, .releasing false)
  | .result, .ok => some (sh, .entering)
  | .next, .ok => some (sh, if sh.iterator then .inCall else .entering)
  | .write, .ok =>
    some (sh, if sh.shape.clientStreaming && !sh.shape.requestGiven then .entering else .ended)
  | .close, .ok => some (sh, .aborting)
  | _, _ => none

-- `_start` with the start lock, up to the first await of `_authenticate`. All that it reads but `_is_cancelled()` is
-- only written on the SDK loop.
def start (sh : StreamShared) (work : StreamWork) (o : StreamOutcome) : Option (StreamShared × StreamPhase) :=
  if sh.call.isSome then some (sh.use work)
  else if sh.startError || sh.isCancelled then some (sh.owe, .ended)
  else
    match o with
    | .ok => some (sh, .verifying)
    | .suspends => some (sh, .authenticating)
    | .error => some (sh.owe, .refusing)
    | _ => none

-- The awaits of the native call and the handlers around them.
def await (sh : StreamShared) : StreamWork → StreamOutcome → Option (StreamShared × StreamPhase)
  | .result, .last => some ({ sh with nativeTerminal := true }.owe, .releasing false)
  | .result, .cancelled => some (sh, if sh.nativeTerminal then .inCall else .aborting)
  | .next, .last => some (sh.owe, .releasing false)
  | .next, .ok => some (sh, .ended)
  | .write, .ok => some (sh, .ended)
  | _, .error => some (sh, .aborting)
  | _, .cancelled => some (sh, .aborting)
  | _, _ => none

def advance (sh : StreamShared) (work : StreamWork) :
    StreamPhase → StreamOutcome → Option (StreamShared × StreamPhase)
  | .queued, o => sh.begin work o
  | .entering, .ok =>
    let sh := { sh with startEntered := true }
    if sh.call.isSome then some (sh.use work)
    else if sh.startError then some (sh.owe, .ended)
    else some (sh, .waiting)
  | .waiting, .cancelled => some (sh, .ended)
  | .waiting, o => sh.start work o
  | .authenticating, .ok => some (sh, .gathering !sh.cancelEvent)
  | .authenticating, .error => some (sh, .gathering false)
  | .authenticating, .cancelled => some (sh, .gathering false)
  | .gathering true, .ok => some (sh, .verifying)
  | .gathering false, .ok => some (sh.owe, .refusing)
  | .gathering _, .error => some (sh.owe, .refusing)
  | .gathering _, .cancelled => some (sh.owe, .refusing)
  | .verifying, .ok => if sh.isCancelled then some (sh.owe, .refusing) else some (sh, .leasing)
  | .leasing, o =>
    match sh.addressChannel, o with
    | some _, .ok => some (sh, .dispatching)
    | none, .ok => some (sh.acquire, .leased sh.leases.length)
    | none, .error => some (sh, .ended) -- `get_channel_by_route` raises
    | _, _ => none
  | .leased l, .ok =>
    if sh.publishes then some ({ sh with addressChannel := some l }, .dispatching)
    else some (sh.giveBack l, .ended)
  | .dispatching, .ok => some (sh.openCall, .opened sh.calls.length)
  | .dispatching, .error => some (sh.owe, .refusing)
  | .opened c, .ok =>
    if sh.publishes then some ({ sh with call := some c }.use work) else some ((sh.cancelCall c).owe, .refusing)
  | .opened c, .error => -- `add_done_callback` or the cancellation of the call raises
    if sh.publishes then some ({ sh with call := some c }.owe, .refusing)
    else some ((sh.cancelCall c).owe, .refusing)
  | .refusing, .ok => some ({ sh with startError := true }.release, .ended)
  | .inCall, o => sh.await work o
  | .aborting, .ok => some (sh.abort, .releasing (work = .result))
  | .releasing true, .ok => some (sh.release, .releasing false)
  | .releasing false, .ok => some (sh.release, .ended)
  | .releasing _, .error => -- the native cancellation before it has raised
    if work = .cancelClose && sh.call.isSome then some (sh.release, .raised) else none
  | _, _ => none

end StreamShared

-- The next section of a caller, with the task that it submits.
def StreamCaller.advance (sh : StreamShared) :
    StreamCaller → Bool → Option (StreamShared × StreamCaller × List StreamTask)
  | .submitting, true => some (sh, .returned, [⟨.cancelClose, .queued⟩])
  | .submitting, false => some (sh, .cancelReleasing, [])
  | .cancelReleasing, _ => some (sh.release, .restoring, [])
  | .restoring, _ => some ({ sh with cancelRequested := false }, .returned, [])
  | .checking t, _ =>
    if !sh.startEntered then some (sh, .cleanupReleasing, [])
    else if t then some ({ sh with cancelled := true }, .scheduling, [])
    else some (sh, .returned, [])
  | .scheduling, true => some (sh, .returned, [⟨.abort, .queued⟩])
  | .scheduling, false => some (sh, .cleanupReleasing, []) -- the owner loop does not run
  | .cleanupReleasing, _ => some (sh.release, .returned, [])
  | .returned, _ => none

namespace StreamState

-- A new stream, with a lease if `grpc_channel_override` is given.
def initial (shape : StreamShape) (override : Bool) : StreamState where
  shared :=
    { shape := shape
      leases := if override then [{}] else []
      addressChannel := if override then some 0 else none }

-- The task goes on to a phase, which tells whether it runs and whether it holds the start lock.
def park (s : StreamState) (i : Nat) (t : StreamTask) (shared : StreamShared) (phase : StreamPhase) : StreamState :=
  { s with
    shared
    startLock := if phase.holdsLock then some i else if s.startLock = some i then none else s.startLock
    active := if phase.isRunning then some i else none
    tasks := s.tasks.set i { t with phase } }

-- The operations that the public methods submit.
def accepts (s : StreamState) : StreamWork → Bool
  | .result => !s.shared.shape.serverStreaming
  | .next => s.shared.shape.serverStreaming
  | .write => true
  | .close => true
  | .cancelClose => false
  | .abort => false

def mayRun (s : StreamState) (i : Nat) (t : StreamTask) (o : StreamOutcome) : Bool :=
  (s.active = none || s.active = some i) && (t.phase ≠ .waiting || o = .cancelled || s.startLock = none)

def step (s : StreamState) : StreamEvent → Option StreamState
  | .submit work => if s.accepts work then some { s with tasks := s.tasks ++ [⟨work, .queued⟩] } else none
  | .reject work =>
    if s.accepts work then some { s with callers := s.callers ++ [.checking (work = .close)] } else none
  | .drop i rejected => do
    let t ← s.tasks[i]?
    if t.phase = .queued && s.accepts t.work then
      some { s with
        tasks := s.tasks.set i { t with phase := .ended }
        callers := if rejected then s.callers ++ [.checking (t.work = .close)] else s.callers }
    else none
  | .observe i => do
    let t ← s.tasks[i]?
    if t.work = .cancelClose && (t.phase = .queued || t.phase = .raised) then
      some { s with
        tasks := s.tasks.set i { t with phase := .ended }
        shared := s.shared.cancelSubmissionFailed }
    else none
  | .run i o => do
    let t ← s.tasks[i]?
    if s.mayRun i t o then
      let r ← s.shared.advance t.work t.phase o
      some (s.park i t r.1 r.2)
    else none
  | .cancel =>
    if s.shared.isCancelled || s.shared.released || (s.shared.nativeTerminal && !s.shared.shape.serverStreaming) then
      none -- returns `False`
    else some { s with shared := { s.shared with cancelRequested := true }, callers := s.callers ++ [.submitting] }
  | .call k choice => do
    let c ← s.callers[k]?
    let r ← c.advance s.shared choice
    some { s with shared := r.1, callers := s.callers.set k r.2.1, tasks := s.tasks ++ r.2.2 }
  | .nativeDone =>
    if s.shared.call.isSome then some { s with shared := { s.shared with nativeTerminal := true } } else none

end StreamState

end Aio
