import PysdkModel.Lib.Text
import PysdkModel.Lib.Varint

namespace Protos

abbrev Bytes := List UInt8

inductive WireType
  | varint
  | fixed64
  | lengthDelimited
  | startGroup
  | endGroup
  | fixed32
  deriving DecidableEq

namespace WireType

def number : WireType → Nat
  | varint => 0
  | fixed64 => 1
  | lengthDelimited => 2
  | startGroup => 3
  | endGroup => 4
  | fixed32 => 5

def ofNumber? : Nat → Option WireType
  | 0 => some varint
  | 1 => some fixed64
  | 2 => some lengthDelimited
  | 3 => some startGroup
  | 4 => some endGroup
  | 5 => some fixed32
  | _ => none

theorem ofNumber?_number {w : WireType} : ofNumber? w.number = some w := by
  cases w <;> rfl

theorem number_lt {w : WireType} : w.number < 8 := by
  cases w <;> decide

end WireType

def maxFieldNumber : Nat := 2 ^ 29 - 1

def maxUint64 : Nat := 2 ^ 64 - 1

-- Raised as `ValueError` (the first three), `struct.error`, `UnicodeEncodeError`, `TypeError` and, for the
-- last two, `EncodeError`.
inductive EncodeError
  | varintRange
  | invalidFieldNumber
  | valueRange (type : String)
  | structError
  | unicodeError
  | typeError
  | missingRequired (names : List Text)
  | messageNesting
  deriving DecidableEq

-- What decoding may raise. All but the last four are `DecodeError`. These are `ValueError` of a normalizer,
-- `TypeError` of `MergeFrom`, what a writer raises, and `RecursionError`.
inductive DecodeFailure
  | truncatedField
  | varintTooLong
  | tagTooLarge
  | tagTooLong
  | invalidFieldNumber
  | invalidWireType
  | invalidUtf8
  | truncatedPacked
  | packedOverrun
  | unexpectedEndGroup
  | groupNesting
  | mismatchedEndGroup
  | messageNesting
  | invalidValue
  | differentType
  | encodeError (e : EncodeError)
  | recursionError

def DecodeFailure.IsDecodeError : DecodeFailure → Prop
  | invalidValue | differentType | encodeError _ | recursionError => False
  | _ => True

def signed (value : Int) (bits : Nat) : Int :=
  let value := value % 2 ^ bits
  if value ≥ 2 ^ (bits - 1) then value - 2 ^ bits else value

def zigzagDecode (value : Nat) : Int :=
  if value % 2 = 1 then -(value / 2 : Nat) - 1 else (value / 2 : Nat)

abbrev BinaryReader := Reader DecodeFailure

namespace BinaryReader

-- The default of a reader's limit `max_depth` of groups, which the decoder never changes.
def maxDepth : Nat := 100

def readExact (size : Nat) : BinaryReader Bytes :=
  Reader.exact .truncatedField size

def varintFormat : Varint.Format DecodeFailure where
  groups := 10
  last := 0xFF
  truncated := .truncatedField
  tooLarge := .varintTooLong
  tooLong := .varintTooLong

def tagFormat : Varint.Format DecodeFailure where
  groups := 5
  last := 0x0F
  truncated := .truncatedField
  tooLarge := .tagTooLarge
  tooLong := .tagTooLong

def readVarint : BinaryReader Nat := do
  let value ← Varint.decode varintFormat
  return value % 2 ^ 64

def readTag : BinaryReader (Nat × WireType) := do
  let tag ← Varint.decode tagFormat
  let fieldNumber := tag / 8
  if fieldNumber = 0 ∨ fieldNumber > maxFieldNumber then
    Reader.fail .invalidFieldNumber
  else
    match WireType.ofNumber? (tag % 8) with
    | none => Reader.fail .invalidWireType
    | some wireType => return (fieldNumber, wireType)

def readInt32 : BinaryReader Int := do
  return signed (← readVarint) 32

def readInt64 : BinaryReader Int := do
  return signed (← readVarint) 64

def readUint32 : BinaryReader Int := do
  return (← readVarint) % 2 ^ 32

def readUint64 : BinaryReader Int := do
  return (← readVarint)

def readSint32 : BinaryReader Int := do
  return signed (zigzagDecode ((← readVarint) % 2 ^ 32)) 32

def readSint64 : BinaryReader Int := do
  return signed (zigzagDecode (← readVarint)) 64

def readBool : BinaryReader Bool := do
  return (← readVarint) ≠ 0

def readFixed (width : Nat) : BinaryReader Nat := do
  return LittleEndian.decode (← readExact width)

def readFixed32 : BinaryReader Int := do
  return (← readFixed 4)

def readSfixed32 : BinaryReader Int := do
  return signed (← readFixed 4) 32

def readFixed64 : BinaryReader Int := do
  return (← readFixed 8)

def readSfixed64 : BinaryReader Int := do
  return signed (← readFixed 8) 64

def readBytes : BinaryReader Bytes := do
  readExact (← readVarint)

def readString : BinaryReader Text := do
  match Text.decodeUtf8 (← readBytes) with
  | none => Reader.fail .invalidUtf8
  | some t => return t

def readPackedValues {α : Type} (read : BinaryReader α) (size : Nat) : BinaryReader (List α) :=
  if size = 0 then
    return []
  else do
    let (value, raw) ← Reader.withRaw read
    if _h : 0 < raw.length ∧ raw.length ≤ size then
      return value :: (← readPackedValues read (size - raw.length))
    else
      Reader.fail .packedOverrun
termination_by size

def readPacked {α : Type} (read : BinaryReader α) : BinaryReader (List α) := do
  let size ← readVarint
  fun i => if size > i.length then .error .truncatedPacked else readPackedValues read size i

-- The values that are skipped without looking into them.
def skipPlain : WireType → BinaryReader Unit
  | .varint => do let _ ← readVarint
  | .fixed64 => do let _ ← readExact 8
  | .lengthDelimited => do let _ ← readBytes
  | .fixed32 => do let _ ← readExact 4
  | .startGroup => Reader.fail .invalidWireType
  | .endGroup => Reader.fail .unexpectedEndGroup

theorem streaming_readVarint : readVarint.Streaming :=
  Varint.streaming_decodeGroups.bind fun _ => .pure

theorem streaming_readBytes : readBytes.Streaming :=
  streaming_readVarint.bind fun _ => .exact

theorem streaming_tag (tag : Nat) :
    Reader.Streaming (ε := DecodeFailure) (α := Nat × WireType) <|
      if tag / 8 = 0 ∨ tag / 8 > maxFieldNumber then
        Reader.fail .invalidFieldNumber
      else
        match WireType.ofNumber? (tag % 8) with
        | none => Reader.fail .invalidWireType
        | some wireType => pure (tag / 8, wireType) := by
  refine .ite .fail ?_
  cases WireType.ofNumber? (tag % 8)
  case none => exact .fail
  case some => exact .pure

theorem streaming_readTag : readTag.Streaming :=
  Varint.streaming_decodeGroups.bind streaming_tag

theorem progress_readTag : readTag.Progress :=
  Varint.progress_decodeGroups.bind streaming_tag

theorem streaming_skipPlain {w : WireType} : (skipPlain w).Streaming := by
  cases w
  case varint => exact streaming_readVarint.bind fun _ => .pure
  case fixed64 => exact Reader.Streaming.exact.bind fun _ => .pure
  case lengthDelimited => exact streaming_readBytes.bind fun _ => .pure
  case fixed32 => exact Reader.Streaming.exact.bind fun _ => .pure
  case startGroup => exact .fail
  case endGroup => exact .fail

-- The loop of `_skip_group` with its stack of open groups, the innermost first.
def skipGroups (depth : Nat) (groups : List Nat) : BinaryReader Unit := fun i =>
  match groups with
  | [] => .ok ((), i)
  | g :: outer =>
    match _ht : readTag i with
    | .error e => .error e
    | .ok ((number, wireType), rest) =>
      match wireType with
      | .startGroup =>
        if groups.length ≥ depth then
          .error .groupNesting
        else
          skipGroups depth (number :: groups) rest
      | .endGroup =>
        if number ≠ g then
          .error .mismatchedEndGroup
        else
          skipGroups depth outer rest
      | w =>
        match _hp : skipPlain w rest with
        | .error e => .error e
        | .ok (_, rest') => skipGroups depth groups rest'
termination_by i => i.length
decreasing_by
  all_goals
    have := progress_readTag _ _ _ _ht
    try have := streaming_skipPlain.length_le _hp
    omega

-- `_skip_value` of a reader with the given `max_depth`.
def skipValueWithin (depth fieldNumber : Nat) : WireType → BinaryReader Unit
  | .startGroup => if 1 > depth then Reader.fail .groupNesting else skipGroups depth [fieldNumber]
  | w => skipPlain w

def skipValue (fieldNumber : Nat) (w : WireType) : BinaryReader Unit :=
  skipValueWithin maxDepth fieldNumber w

-- `skip_field` of a reader of `data` at the position `pos`: the bytes from the start of the tag on and the
-- position after them.
def skipField (depth : Nat) (data : Bytes) (pos fieldNumber : Nat) (w : WireType) (tagStart : Nat) :
    Except DecodeFailure (Bytes × Nat) :=
  match skipValueWithin depth fieldNumber w (data.drop pos) with
  | .error e => .error e
  | .ok (_, rest') =>
    let pos := data.length - rest'.length
    .ok ((data.take pos).drop tagStart, pos)

end BinaryReader

def zigzagEncode (value : Int) : Int :=
  if value < 0 then -2 * value - 1 else 2 * value

namespace BinaryWriter

def writeVarint (value : Int) : Except EncodeError Bytes :=
  if value < 0 ∨ value > maxUint64 then .error .varintRange else .ok (Varint.encode value.toNat)

def writeTag (fieldNumber : Nat) (w : WireType) : Except EncodeError Bytes :=
  if fieldNumber = 0 ∨ fieldNumber > maxFieldNumber then
    .error .invalidFieldNumber
  else
    writeVarint (fieldNumber * 8 + w.number)

def checkRange (low high value : Int) (error : EncodeError) : Except EncodeError Unit :=
  if low ≤ value ∧ value < high then .ok () else .error error

def writeInt32 (value : Int) : Except EncodeError Bytes := do
  checkRange (-2 ^ 31) (2 ^ 31) value (.valueRange "int32")
  writeVarint (value % 2 ^ 64)

def writeInt64 (value : Int) : Except EncodeError Bytes := do
  checkRange (-2 ^ 63) (2 ^ 63) value (.valueRange "int64")
  writeVarint (value % 2 ^ 64)

def writeUint32 (value : Int) : Except EncodeError Bytes := do
  checkRange 0 (2 ^ 32) value (.valueRange "uint32")
  writeVarint value

def writeUint64 (value : Int) : Except EncodeError Bytes :=
  writeVarint value

def writeSint32 (value : Int) : Except EncodeError Bytes := do
  checkRange (-2 ^ 31) (2 ^ 31) value (.valueRange "sint32")
  writeVarint (zigzagEncode value % 2 ^ 32)

def writeSint64 (value : Int) : Except EncodeError Bytes := do
  checkRange (-2 ^ 63) (2 ^ 63) value (.valueRange "sint64")
  writeVarint (zigzagEncode value % 2 ^ 64)

def writeBool (value : Bool) : Except EncodeError Bytes :=
  writeVarint (if value then 1 else 0)

-- `struct.pack` for an integer of `width` bytes.
def writeFixed (width : Nat) (low high value : Int) : Except EncodeError Bytes := do
  checkRange low high value .structError
  return LittleEndian.encode width (value % 2 ^ (8 * width)).toNat

def writeFixed32 (value : Int) : Except EncodeError Bytes :=
  writeFixed 4 0 (2 ^ 32) value

def writeSfixed32 (value : Int) : Except EncodeError Bytes :=
  writeFixed 4 (-2 ^ 31) (2 ^ 31) value

def writeFixed64 (value : Int) : Except EncodeError Bytes :=
  writeFixed 8 0 (2 ^ 64) value

def writeSfixed64 (value : Int) : Except EncodeError Bytes :=
  writeFixed 8 (-2 ^ 63) (2 ^ 63) value

def writeBytes (value : Bytes) : Except EncodeError Bytes := do
  return (← writeVarint value.length) ++ value

def writeString (value : Text) : Except EncodeError Bytes :=
  match value.encodeUtf8 with
  | none => .error .unicodeError
  | some b => writeBytes b

def writePacked {α : Type} (values : List α) (write : α → Except EncodeError Bytes) :
    Except EncodeError Bytes := do
  writeBytes (← values.mapM write).flatten

end BinaryWriter

end Protos
