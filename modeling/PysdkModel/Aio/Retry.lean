import Mathlib.Data.Option.Basic

-- The retry classification of aio/service_error.py, and the conversion of native errors of aio/request.py.

namespace Aio

inductive StatusCode
  | ok
  | cancelled
  | unknown
  | invalidArgument
  | deadlineExceeded
  | notFound
  | alreadyExists
  | permissionDenied
  | resourceExhausted
  | failedPrecondition
  | aborted
  | outOfRange
  | unimplemented
  | internal
  | unavailable
  | dataLoss
  | unauthenticated
  deriving DecidableEq

-- The retry types of a service error that `retry_hint` knows by name; `unspecified` is every other one.
inductive RetryType
  | unspecified
  | call
  | unitOfWork
  | nothing
  deriving DecidableEq

-- `RequestStatusExtended`, as far as requests look at it. The texts are only searched: `http52x` says that
-- the message holds an unexpected HTTP 52x status.
structure RequestStatus where
  code : StatusCode
  serviceErrors : List RetryType
  http52x : Bool
  hasRequestId : Bool
  deriving DecidableEq

-- `retry_hint`: the first service error with a known retry type decides.
def retryHint : List RetryType → Option Bool
  | [] => none
  | .call :: _ => some true
  | .nothing :: _ => some false
  | .unitOfWork :: _ => some false
  | .unspecified :: types => retryHint types

-- The default retriable codes, and DEADLINE_EXCEEDED.
def StatusCode.isRetriable : StatusCode → Bool
  | .resourceExhausted | .unavailable | .deadlineExceeded => true
  | _ => false

-- `is_retriable(deadline_retriable=True)`
def RequestStatus.isRetriable (s : RequestStatus) : Bool :=
  (retryHint s.serviceErrors).getD (s.code.isRetriable || (s.code = .unknown && s.http52x))

-- An exception that leaves an attempt: a `RequestError` of service_error.py, or any other one together with
-- what `is_retriable_error` finds in its chain.
inductive Failure
  | request (status : RequestStatus)
  | other (retriable : Bool)
  deriving DecidableEq

-- `is_retriable_error(e, deadline_retriable=True)`
def Failure.isRetriable : Failure → Bool
  | .request status => status.isRetriable
  | .other retriable => retriable

def Failure.isUnauthenticated : Failure → Bool
  | .request status => status.code = .unauthenticated
  | .other _ => false

-- The `grpc-status-details-bin` entry of the trailing metadata.
inductive RichStatus
  | missing
  | malformed
  | decoded (serviceErrors : List RetryType)
  deriving DecidableEq

-- `AioRpcError`. `http52x` is about its details, `http52xText` about its debug string and its text.
structure RpcError where
  code : StatusCode
  rich : RichStatus
  http52x : Bool
  http52xText : Bool
  nameResolution : Bool
  hasRequestId : Bool
  deriving DecidableEq

namespace RpcError

-- `is_retriable_error` of the native error itself.
def isRetriable (e : RpcError) : Bool :=
  (e.code = .unknown && (e.http52x || e.http52xText)) || e.nameResolution

def structuredRetry (e : RpcError) : Option Bool :=
  match e.rich with
  | .decoded serviceErrors => retryHint serviceErrors
  | _ => none

-- `_raise_request_error`. A rich status that does not decode raises another error, in whose chain the native
-- error remains.
def convert (e : RpcError) : Failure :=
  match e.rich with
  | .missing => .request ⟨e.code, [], e.http52x, e.hasRequestId⟩
  | .malformed => .other e.isRetriable
  | .decoded serviceErrors => .request ⟨e.code, serviceErrors, e.http52x, e.hasRequestId⟩

theorem code_of_isUnauthenticated {e : RpcError} (h : e.convert.isUnauthenticated = true) :
    e.code = .unauthenticated := by
  cases hr : e.rich with
  | malformed => simp [convert, hr, Failure.isUnauthenticated] at h
  | _ => simpa [convert, hr, Failure.isUnauthenticated] using h

-- The classification before the conversion: `could_retry` without its time and retry limits.
def couldRetry (e : RpcError) : Bool :=
  match e.structuredRetry with
  | some retry => retry
  | none => e.code.isRetriable || e.isRetriable

attribute [local simp] structuredRetry couldRetry

-- The two classifications agree where it matters: what is retried after the conversion was announced before.
theorem couldRetry_of_convert {e : RpcError} (h : e.convert.isRetriable = true) : e.couldRetry = true := by
  cases hr : e.rich with
  | missing =>
    simp only [convert, hr, Failure.isRetriable, RequestStatus.isRetriable, retryHint, Option.getD_none,
      Bool.or_eq_true, Bool.and_eq_true, decide_eq_true_eq] at h
    rcases h with h | ⟨hc, h⟩
    · simp [hr, h]
    · simp [hr, isRetriable, hc, h]
  | malformed =>
    simp only [convert, hr, Failure.isRetriable] at h
    simp [hr, h]
  | decoded serviceErrors =>
    simp only [convert, hr, Failure.isRetriable, RequestStatus.isRetriable] at h
    cases hh : retryHint serviceErrors with
    | some retry => simpa [hr, hh] using h
    | none =>
      simp only [hh, Option.getD_none, Bool.or_eq_true, Bool.and_eq_true, decide_eq_true_eq] at h
      rcases h with h | ⟨hc, h⟩
      · simp [hr, hh, h]
      · simp [hr, hh, isRetriable, hc, h]

end RpcError

end Aio
