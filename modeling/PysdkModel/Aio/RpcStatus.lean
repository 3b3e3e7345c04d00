import PysdkModel.Aio.Retry
import PysdkModel.Protos.Decode
import PysdkModel.Protos.Serialize

-- `RequestStatusExtended.from_rpc_status` and `to_rpc_status` of aio/service_error.py with what they use of
-- aio/request_status.py and of `Registry` in base/protos/registry.py. The status belongs to the registry that converts
-- it, so that it is localized by copying it. A status of another class is parsed from its serialization before.

namespace Aio

open Protos

-- `StatusCode.value[0]`
def StatusCode.value : StatusCode → Int
  | .ok => 0
  | .cancelled => 1
  | .unknown => 2
  | .invalidArgument => 3
  | .deadlineExceeded => 4
  | .notFound => 5
  | .alreadyExists => 6
  | .permissionDenied => 7
  | .resourceExhausted => 8
  | .failedPrecondition => 9
  | .aborted => 10
  | .outOfRange => 11
  | .unimplemented => 12
  | .internal => 13
  | .unavailable => 14
  | .dataLoss => 15
  | .unauthenticated => 16

def StatusCode.members : List StatusCode :=
  [.ok, .cancelled, .unknown, .invalidArgument, .deadlineExceeded, .notFound, .alreadyExists, .permissionDenied,
    .unauthenticated, .resourceExhausted, .failedPrecondition, .aborted, .unimplemented, .outOfRange, .internal,
    .unavailable, .dataLoss]

def statusCode (value : Int) : StatusCode :=
  (StatusCode.members.find? (·.value = value)).getD .unknown

structure AnyDetail where
  typeUrl : Text
  value : Bytes
  unknownFields : List Bytes
  deriving DecidableEq

structure RpcStatus where
  code : Int
  message : Text
  details : List AnyDetail
  unknownFields : List Bytes

-- A field of these two messages, which are declared with proto3.
def plainField (name : String) (number : Nat) (codec : Codec) (repeated : Bool) : Field where
  protoName := .ofString name
  number := number
  codec := codec
  repeated := repeated
  packed := false
  explicitPresence := false
  required := false
  oneof := none
  defaultFactory := none
  mapKeyCodec := none
  immutable := false
  immutableOneof := false

def anyClass : MessageClass where
  fields           := [plainField "type_url" 1 .string false, plainField "value" 2 .bytes false]
  extensions := []
  maxNestingDepth := MessageClass.hardMaxDepth
  nodup := by decide
  nodup_extensions := .nil

def rpcStatusClass : MessageClass where
  fields           := [plainField "code" 1 .int32 false, plainField "message" 2 .string false,
    plainField "details" 3 (.message 1) true]
  extensions := []
  maxNestingDepth := MessageClass.hardMaxDepth
  nodup := by decide
  nodup_extensions := .nil

def rpcSchema : Schema
  | 0 => rpcStatusClass
  | _ => anyClass

namespace AnyDetail

def toMessage (d : AnyDetail) : Message :=
  .mk 1 {
    values := fun k =>
      if k = .field 1 then some (.singular (.scalar (.string d.typeUrl)))
      else if k = .field 2 then some (.singular (.scalar (.bytes d.value)))
      else none
    present := fun _ => false
    oneofs := fun _ => none
    unknownFields := d.unknownFields }

def serialize (d : AnyDetail) : Except EncodeError Bytes :=
  d.toMessage.serializeToString rpcSchema false

end AnyDetail

namespace RpcStatus

def toMessage (s : RpcStatus) : Message :=
  .mk 0 {
    values := fun k =>
      if k = .field 1 then some (.singular (.scalar (.int s.code)))
      else if k = .field 2 then some (.singular (.scalar (.string s.message)))
      else if k = .field 3 then some (.repeated (s.details.map fun d => .message d.toMessage))
      else none
    present := fun _ => false
    oneofs := fun _ => none
    unknownFields := s.unknownFields }

def serialize (deterministic : Bool) (s : RpcStatus) : Except EncodeError Bytes :=
  s.toMessage.serializeToString rpcSchema deterministic

end RpcStatus

-- A service error with `__PROTO_FULL_NAME__` of its class.
structure ServiceError where
  fullName : Text
  message : Message

def serviceErrorNames : List Text :=
  [.ofString "nebius.common.v1.ServiceError", .ofString "nebius.common.error.v1alpha1.ServiceError"]

-- What a registry knows of message classes: `message_class` raises `LookupError` for a name that it does not know.
structure Registry where
  messageClass : Text → Option ClassId
  schema : Schema

namespace Registry

def isNameStart (c : CodePoint) : Bool :=
  (0x41 ≤ c && c ≤ 0x5A) || (0x61 ≤ c && c ≤ 0x7A) || c = 0x5F

def isNamePart (c : CodePoint) : Bool :=
  isNameStart c || (0x30 ≤ c && c ≤ 0x39)

def isProtoName (name : Text) : Bool :=
  (name.splitOn 0x2E).all fun
    | [] => false
    | c :: cs => isNameStart c && cs.all isNamePart

-- `str.rpartition("/")`, with `none` if there is no separator.
def rpartition (t : Text) : Option (Text × Text) :=
  match t.reverse.dropWhile (· ≠ 0x2F) with
  | [] => none
  | _ :: front => some (front.reverse, (t.reverse.takeWhile (· ≠ 0x2F)).reverse)

-- `type_name`, with `none` for `ValueError`.
def typeName (typeUrl : Text) : Option Text := do
  let (front, fullName) ← rpartition typeUrl
  if front ≠ [] ∧ isProtoName fullName then some fullName else none

def packAny (R : Registry) (error : ServiceError) : Except EncodeError AnyDetail := do
  return {
    typeUrl       := .ofString "type.googleapis.com/" ++ error.fullName
    value := ← error.message.serializeToString R.schema true
    unknownFields := [] }

-- The class of a detail that is a service error. The others are left as they are: malformed type URLs, other names and
-- names that are not registered.
def serviceErrorClass (R : Registry) (d : AnyDetail) : Option (Text × ClassId) := do
  let fullName ← typeName d.typeUrl
  if fullName ∈ serviceErrorNames then return (fullName, ← R.messageClass fullName) else none

def isServiceError (R : Registry) (d : AnyDetail) : Bool :=
  (R.serviceErrorClass d).isSome

-- The loop of `from_rpc_status` over the details. A payload that cannot be parsed raises.
def splitDetails (R : Registry) : List AnyDetail → Except DecodeFailure (List AnyDetail × List ServiceError)
  | [] => .ok ([], [])
  | d :: ds =>
    match R.serviceErrorClass d with
    | none => do
      let (rest, errors) ← splitDetails R ds
      return (d :: rest, errors)
    | some (fullName, c) => do
      let message ← Message.fromString R.schema c d.value
      let (rest, errors) ← splitDetails R ds
      return (rest, ⟨fullName, message⟩ :: errors)

end Registry

structure ExtendedState where
  code : StatusCode
  message : Option Text
  details : List Bytes
  errors : List Bytes
  deriving DecidableEq

structure RequestStatusExtended where
  code : StatusCode
  message : Option Text
  details : List AnyDetail
  serviceErrors : List ServiceError
  rawStatus : RpcStatus
  originalExtendedState : ExtendedState

inductive StatusError
  | encode (e : EncodeError)
  | decode (e : DecodeFailure)

def extendedState (R : Registry) (code : StatusCode) (message : Option Text) (details : List AnyDetail)
    (serviceErrors : List ServiceError) : Except EncodeError ExtendedState := do
  return {
    code := code
    message := message
    details := ← details.mapM AnyDetail.serialize
    errors := ← serviceErrors.mapM fun e => e.message.serializeToString R.schema false }

namespace RequestStatusExtended

def fromRpcStatus (R : Registry) (status : RpcStatus) : Except StatusError RequestStatusExtended := do
  -- `_state` of the `RequestStatus`, which holds all details.
  let _ ← (status.details.mapM AnyDetail.serialize).mapError .encode
  let (details, serviceErrors) ← (R.splitDetails status.details).mapError .decode
  let state ← (extendedState R (statusCode status.code) (some status.message) details serviceErrors).mapError .encode
  return {
    code := statusCode status.code
    message := some status.message
    details := details
    serviceErrors := serviceErrors
    rawStatus := status
    originalExtendedState := state }

def toRpcStatus (R : Registry) (v : RequestStatusExtended) : Except StatusError RpcStatus := do
  let current ← (extendedState R v.code v.message v.details v.serviceErrors).mapError .encode
  let code := if current.code ≠ v.originalExtendedState.code then v.code.value else v.rawStatus.code
  let message := if current.message ≠ v.originalExtendedState.message then v.message.getD [] else v.rawStatus.message
  let ret := { v.rawStatus with code := code, message := message }
  if current = v.originalExtendedState then
    return ret
  else
    let packed ← (v.serviceErrors.mapM R.packAny).mapError .encode
    return { ret with details := v.details ++ packed }

end RequestStatusExtended

end Aio
