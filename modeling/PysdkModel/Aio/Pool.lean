import Mathlib.Data.Finset.Image
import PysdkModel.Lib.Machine

-- The transport pool of aio/channel.py as a machine. A call goes through several sections under
-- `_channel_pool_lock`; what a call still has to do is an operation, and other calls can come in between.

namespace Aio

-- `AddressChannel`: a wrapper of a native transport. Wrappers are told apart by their identity.
structure Wrapper (Address : Type) where
  id : Nat
  transport : Nat
  address : Address
  onSdkLoop : Bool -- `event_loop` is the loop of the SDK
  deriving DecidableEq

namespace Pool

-- What a call that has begun does next.
inductive Op (Address : Type)
  | creating (address : Address) -- `create_address_channel`
  | popped (w : Wrapper Address) -- `get_state`
  | leasing (w : Wrapper Address) -- `_lease_address_channel`
  | deferred (w : Wrapper Address) (discard : Bool) -- accepted, not started
  | releasing (w : Wrapper Address) (discard : Bool) -- `_release_address_channel`
  | lost (w : Wrapper Address) -- released after the close
  | deciding (w : Wrapper Address) (discard reserved : Bool) -- `_new_lease`
  | returning (w : Wrapper Address) (lease : Option (Wrapper Address)) (reserved : Bool)
  | closing (w : Wrapper Address) (alreadyRetired : Bool) -- `_schedule_address_channel_close`
  | registering (w : Wrapper Address) -- its section under `_tasks_lock`
  deriving DecidableEq

-- What a call finds out or is told by its surroundings.
structure Choice where
  shutdown : Bool -- the transport reports SHUTDOWN
  leaseFails : Bool -- `_new_lease` raises, or its result is not valid
  onSdkLoop : Bool -- the new transport belongs to the loop of the SDK
  ownerRuns : Bool -- the other loop that owns the transport is running

end Pool

open Pool in
structure Pool (Address : Type) where
  free : List (Wrapper Address) -- `_free_channels`, of all addresses
  leased : Finset (Wrapper Address) -- `_leased_channels`
  retired : Finset (Wrapper Address) -- `_retired_by_sdk`
  marked : Finset (Wrapper Address) -- `_closed_by_sdk`
  closed : Bool
  accepting : Bool -- of the runtime
  ops : Multiset (Op Address)
  registered : Finset (Wrapper Address) -- `_transport_closes`
  starting : Multiset (Wrapper Address)
  running : Multiset (Wrapper Address)
  -- `_close_internal`
  snapshot : Option (Finset (Wrapper Address)) -- `channels`, once there is a `_close_completion`
  pending : Multiset (Wrapper Address) -- those that the cleanup still has to close
  cleaning : Multiset (Wrapper Address) -- those that it is closing
  forgotten : Bool -- the snapshot was taken out of the lease table
  completed : Bool
  -- what has happened so far
  nextWrapper : Nat
  nextTransport : Nat
  issued : Finset (Wrapper Address) -- the wrappers that came from the pool or went into it
  handed : Multiset (Wrapper Address) -- the leases that were returned to callers
  scheduled : Finset Nat -- the transports whose close was scheduled
  started : Multiset Nat -- the transports whose native close was started

namespace Pool

variable {Address : Type} [DecidableEq Address]

def initial : Pool Address where
  free := []
  leased := ∅
  retired := ∅
  marked := ∅
  closed := false
  accepting := true
  ops := 0
  registered := ∅
  starting := 0
  running := 0
  snapshot := none
  pending := 0
  cleaning := 0
  forgotten := false
  completed := false
  nextWrapper := 0
  nextTransport := 0
  issued := ∅
  handed := 0
  scheduled := ∅
  started := 0

def push (s : Pool Address) (o : Op Address) : Pool Address := { s with ops := o ::ₘ s.ops }

def fits (address : Address) (w : Wrapper Address) : Bool := w.address = address && w.onSdkLoop

-- The section of `_get_channel_by_addr_internal`: the last entry that fits is taken. On a closed channel the
-- call raises.
def get (s : Pool Address) (address : Address) : Pool Address :=
  if s.closed then s
  else match s.free.reverse.find? (fits address) with
    | some w => { s with free := (s.free.reverse.eraseP (fits address)).reverse }.push (.popped w)
    | none => s.push (.creating address)

def createAddressChannel (s : Pool Address) (address : Address) (onSdkLoop : Bool) : Pool Address :=
  let w : Wrapper Address := ⟨s.nextWrapper, s.nextTransport, address, onSdkLoop⟩
  { s with
    nextWrapper := s.nextWrapper + 1
    nextTransport := s.nextTransport + 1
    issued := insert w s.issued }.push (.leasing w)

def checkState (s : Pool Address) (w : Wrapper Address) (shutdown : Bool) : Pool Address :=
  s.push (if shutdown then .closing w false else .leasing w)

def leaseAddressChannel (s : Pool Address) (w : Wrapper Address) : Pool Address :=
  if s.closed then s.push (.closing w false)
  else { s with leased := insert w s.leased, handed := w ::ₘ s.handed }

-- A release on a closed channel. Until `_close_internal` has taken its snapshot, the lease remains visible to it.
def releaseClosed (s : Pool Address) (w : Wrapper Address) : Pool Address :=
  { s with
    leased := if s.snapshot.isSome then s.leased.erase w else s.leased
    ops := if w ∈ s.leased then s.ops else .lost w ::ₘ s.ops }

def releaseChannelOnSdkLoop (s : Pool Address) (w : Wrapper Address) (discard : Bool) : Pool Address :=
  if s.closed then s.releaseClosed w else s.push (.releasing w discard)

-- The first section of `_release_address_channel`.
def releaseAddressChannel (s : Pool Address) (w : Wrapper Address) (discard : Bool) : Pool Address :=
  if s.closed then s.releaseClosed w
  else
    { s with
      leased := s.leased.erase w
      retired := if discard then insert w s.retired else s.retired
      ops := .deciding w discard (discard && w ∉ s.retired) ::ₘ s.ops }

-- The channel was closed, and the wrapper was not in the lease table.
def releaseLost (s : Pool Address) (w : Wrapper Address) : Pool Address :=
  if w ∈ s.retired then s else s.push (.closing w false)

-- A transport that can be reused gets a fresh wrapper.
def newLease (s : Pool Address) (w : Wrapper Address) (discard reserved : Bool) (c : Choice) : Pool Address :=
  let reusable := !discard && w ∉ s.retired && w.onSdkLoop && !c.shutdown && !c.leaseFails
  { s with
    nextWrapper := s.nextWrapper + 1
    ops :=
      .returning w (if reusable then some { w with id := s.nextWrapper } else none) reserved ::ₘ s.ops }

def freeAt (s : Pool Address) (address : Address) : List (Wrapper Address) :=
  s.free.filter (·.address = address)

-- The second section of `_release_address_channel`.
def returnLease (max : Nat) (s : Pool Address) (w : Wrapper Address) (lease : Option (Wrapper Address))
    (reserved : Bool) : Pool Address :=
  match lease with
  | none => s.push (.closing w reserved)
  | some lease =>
    if lease ∈ s.leased ∨ lease ∈ s.free ∨ s.closed = true ∨ w ∈ s.retired then s.push (.closing w reserved)
    else if w ∈ s.free then s
    else if (s.freeAt w.address).length < max then
      { s with
        retired := insert w s.retired
        free := s.free ++ [lease]
        issued := insert lease s.issued }
    else s.push (.closing w reserved)

-- The first section of `_schedule_address_channel_close`: whoever retires the wrapper closes the transport.
def scheduleAddressChannelClose (s : Pool Address) (w : Wrapper Address) (alreadyRetired : Bool) : Pool Address :=
  if !alreadyRetired && w ∈ s.retired then s
  else
    { s with
      retired := insert w s.retired
      free := s.free.filter (· ≠ w)
      scheduled := insert w.transport s.scheduled }.push (.registering w)

-- The rest of it. The close is submitted to the runtime or, where that is closing, handed to the loop itself.
-- A transport of another loop is closed there, if that loop is running.
def registerClose (s : Pool Address) (w : Wrapper Address) (ownerRuns : Bool) : Pool Address :=
  if w.onSdkLoop then
    if w ∈ s.registered then s
    else { s with registered := insert w s.registered, starting := w ::ₘ s.starting }
  else { s with starting := if ownerRuns then w ::ₘ s.starting else s.starting }

def releaseChannelSoon (s : Pool Address) (w : Wrapper Address) (discard : Bool) : Pool Address :=
  s.push (if s.accepting then .deferred w discard else .closing w false)

-- `finish_release` of a submission that did not start.
def finishUnstarted (s : Pool Address) (w : Wrapper Address) : Pool Address :=
  if w ∈ s.marked then s else s.push (.closing w (w ∈ s.retired))

def takeSnapshot (s : Pool Address) : Pool Address :=
  let channels := s.free.toFinset ∪ s.leased
  { s with
    closed := true
    snapshot := some channels
    retired := s.retired ∪ channels
    free := []
    pending := channels.val
    scheduled := s.scheduled ∪ channels.image Wrapper.transport }

-- The cleanup closes a transport of the snapshot; one of another loop is closed there.
def closeSnapshot (s : Pool Address) (w : Wrapper Address) : Pool Address :=
  if w.onSdkLoop then
    { s with
      pending := s.pending.erase w
      cleaning := w ::ₘ s.cleaning
      started := w.transport ::ₘ s.started }
  else { s with pending := s.pending.erase w }.push (.closing w true)

def startClose (s : Pool Address) (w : Wrapper Address) : Pool Address :=
  { s with
    starting := s.starting.erase w
    running := w ::ₘ s.running
    started := w.transport ::ₘ s.started }

-- The loop rejects the task of a close that was accepted: `close_and_log` never runs, and
-- `settle_rejected_submission` ends the registration.
def settleRejectedSubmission (s : Pool Address) (w : Wrapper Address) : Pool Address :=
  { s with
    starting := s.starting.erase w
    registered := s.registered.erase w }

def finishClose (s : Pool Address) (w : Wrapper Address) : Pool Address :=
  { s with
    running := s.running.erase w
    marked := insert w s.marked
    registered := s.registered.erase w }

def advance (max : Nat) (s : Pool Address) (c : Choice) : Op Address → Pool Address
  | .creating address => s.createAddressChannel address c.onSdkLoop
  | .popped w => s.checkState w c.shutdown
  | .leasing w => s.leaseAddressChannel w
  | .deferred w discard => s.push (.releasing w discard)
  | .releasing w discard => s.releaseAddressChannel w discard
  | .lost w => s.releaseLost w
  | .deciding w discard reserved => s.newLease w discard reserved c
  | .returning w lease reserved => returnLease max s w lease reserved
  | .closing w alreadyRetired => s.scheduleAddressChannelClose w alreadyRetired
  | .registering w => s.registerClose w c.ownerRuns

inductive Event (Address : Type)
  | get (address : Address)
  | release (w : Wrapper Address) (discard : Bool) -- `return_channel`, `discard_channel`, `release_channel`
  | releaseSoon (w : Wrapper Address) (discard : Bool)
  | advance (o : Op Address) (c : Choice)
  | reject (w : Wrapper Address) (discard : Bool) -- the runtime rejects the release of another thread
  | abandon (w : Wrapper Address) (discard : Bool) -- a deferred release ends without having started
  | beginClose -- `_get_close_handle`
  | stopAccepting -- `begin_close` of the runtime
  | takeSnapshot
  | closeSnapshot (w : Wrapper Address)
  | finishCleaning (w : Wrapper Address)
  | startClose (w : Wrapper Address)
  | rejectClose (w : Wrapper Address) -- the creation of its task fails
  | finishClose (w : Wrapper Address)
  | forget
  | complete

def pop (s : Pool Address) (o : Op Address) : Pool Address := { s with ops := s.ops.erase o }

-- Only wrappers that were leased from the pool are released.
def step (max : Nat) (s : Pool Address) : Event Address → Option (Pool Address)
  | .get address => some (s.get address)
  | .release w discard => if w ∈ s.handed then some (s.releaseChannelOnSdkLoop w discard) else none
  | .releaseSoon w discard => if w ∈ s.handed then some (s.releaseChannelSoon w discard) else none
  | .advance o c => if o ∈ s.ops then some (advance max (s.pop o) c o) else none
  | .reject w discard => if .releasing w discard ∈ s.ops then some (s.pop (.releasing w discard)) else none
  | .abandon w discard =>
    if .deferred w discard ∈ s.ops then some ((s.pop (.deferred w discard)).finishUnstarted w) else none
  | .beginClose => some { s with closed := true }
  | .stopAccepting => some { s with accepting := false }
  | .takeSnapshot => if s.snapshot = none then some s.takeSnapshot else none
  | .closeSnapshot w => if w ∈ s.pending then some (s.closeSnapshot w) else none
  | .finishCleaning w =>
    if w ∈ s.cleaning then some { s with cleaning := s.cleaning.erase w, marked := insert w s.marked } else none
  | .startClose w => if w ∈ s.starting then some (s.startClose w) else none
  | .rejectClose w => if w ∈ s.starting then some (s.settleRejectedSubmission w) else none
  | .finishClose w => if w ∈ s.running then some (s.finishClose w) else none
  | .forget =>
    match s.snapshot with
    | some channels =>
      if s.pending = 0 ∧ s.cleaning = 0 then some { s with leased := s.leased \ channels, forgotten := true }
      else none
    | none => none
  | .complete => if s.forgotten = true ∧ s.registered = ∅ then some { s with completed := true } else none

end Pool

end Aio
