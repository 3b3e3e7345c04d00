import Mathlib.Data.List.Lex
import Mathlib.Order.Fin.Basic
import PysdkModel.FieldMask.FieldKey
import PysdkModel.Protos.Wire

namespace Protos

-- A Python value of a scalar codec. Enum values are their numbers. The value of a `FLOAT` field is a
-- double that a `binary32` represents exactly, so it is stored as the bits of the latter.
inductive Scalar
  | int (i : Int)
  | bool (b : Bool)
  | string (t : Text)
  | bytes (b : Bytes)
  | float (bits : BitVec 32)
  | double (bits : BitVec 64)
  deriving DecidableEq

namespace Scalar

-- The comparison of floats whose exponent is `exp` bits wide and follows a mantissa of `mant` bits.
def floatEq {w : Nat} (exp mant : Nat) (a b : BitVec w) : Bool :=
  !isNaN a && !isNaN b && (a == b || (isZero a && isZero b))
where
  isNaN (bits : BitVec w) : Bool :=
    bits.extractLsb' mant exp == BitVec.allOnes exp && bits.extractLsb' 0 mant != 0
  isZero (bits : BitVec w) : Bool :=
    bits.extractLsb' 0 (mant + exp) == 0

-- Python's `==`. Only for floats it is not the equality of the values.
def eq : Scalar → Scalar → Bool
  | .float a, .float b => floatEq 8 23 a b
  | .double a, .double b => floatEq 11 52 a b
  | a, b => a == b

-- Python's `<=` on the keys of a map.
def le : Scalar → Scalar → Bool
  | .int a, .int b => a ≤ b
  | .bool a, .bool b => !a || b
  | .string a, .string b => a ≤ b
  | .bytes a, .bytes b => a.map UInt8.toNat ≤ b.map UInt8.toNat
  | _, _ => false

end Scalar

-- The name of a message class, which codecs resolve lazily.
abbrev ClassId := Nat

-- The part of `enum_codec` that binary data depends on.
structure EnumType where
  values : List Int
  default : Int
  closed : Bool
  default_mem : default ∈ values
  deriving DecidableEq

inductive Codec
  | int32
  | int64
  | uint32
  | uint64
  | sint32
  | sint64
  | bool
  | fixed32
  | sfixed32
  | float
  | fixed64
  | sfixed64
  | double
  | bytes
  | string
  | enum (e : EnumType)
  | message (cls : ClassId)
  deriving DecidableEq

namespace Codec

-- Only message codecs define `bind_mutation`.
def isMessage : Codec → Bool
  | .message _ => true
  | _ => false

-- The default of a scalar codec. That of a message codec is a new message and does not occur here.
def default : Codec → Scalar
  | .bool => .bool false
  | .float => .float 0
  | .double => .double 0
  | .bytes => .bytes []
  | .string => .string []
  | .enum e => .int e.default
  | _ => .int 0

def wireType : Codec → WireType
  | .fixed32 | .sfixed32 | .float => .fixed32
  | .fixed64 | .sfixed64 | .double => .fixed64
  | .bytes | .string | .message _ => .lengthDelimited
  | _ => .varint

def packable : Codec → Bool
  | .bytes | .string | .message _ => false
  | _ => true

def closedEnumUnknown : Codec → Scalar → Bool
  | .enum e, .int i => e.closed && i ∉ e.values
  | _, _ => false

-- The values that `normalize` returns.
def accepts : Codec → Scalar → Bool
  | .int32, .int i => -2 ^ 31 ≤ i && i < 2 ^ 31
  | .int64, .int i => -2 ^ 63 ≤ i && i < 2 ^ 63
  | .uint32, .int i => 0 ≤ i && i < 2 ^ 32
  | .uint64, .int i => 0 ≤ i && i < 2 ^ 64
  | .sint32, .int i => -2 ^ 31 ≤ i && i < 2 ^ 31
  | .sint64, .int i => -2 ^ 63 ≤ i && i < 2 ^ 63
  | .bool, .bool _ => true
  | .fixed32, .int i => 0 ≤ i && i < 2 ^ 32
  | .sfixed32, .int i => -2 ^ 31 ≤ i && i < 2 ^ 31
  | .float, .float _ => true
  | .fixed64, .int i => 0 ≤ i && i < 2 ^ 64
  | .sfixed64, .int i => -2 ^ 63 ≤ i && i < 2 ^ 63
  | .double, .double _ => true
  | .bytes, .bytes _ => true
  | .string, .string _ => true
  | .enum e, .int i => (-2 ^ 31 ≤ i && i < 2 ^ 31) && !(e.closed && i ∉ e.values)
  | _, _ => false

open BinaryReader in
-- The reader of a scalar codec. Message codecs read a nested message instead.
def read : Codec → BinaryReader Scalar
  | .int32 => do return .int (← readInt32)
  | .int64 => do return .int (← readInt64)
  | .uint32 => do return .int (← readUint32)
  | .uint64 => do return .int (← readUint64)
  | .sint32 => do return .int (← readSint32)
  | .sint64 => do return .int (← readSint64)
  | .bool => do return .bool (← readBool)
  | .fixed32 => do return .int (← readFixed32)
  | .sfixed32 => do return .int (← readSfixed32)
  | .float => do return .float (.ofNat 32 (← readFixed 4))
  | .fixed64 => do return .int (← readFixed64)
  | .sfixed64 => do return .int (← readSfixed64)
  | .double => do return .double (.ofNat 64 (← readFixed 8))
  | .bytes => do return .bytes (← readBytes)
  | .string => do return .string (← readString)
  | .enum _ => do return .int (← readInt32)
  | .message _ => Reader.fail .invalidValue

open BinaryWriter in
def write : Codec → Scalar → Except EncodeError Bytes
  | .int32, .int i => writeInt32 i
  | .int64, .int i => writeInt64 i
  | .uint32, .int i => writeUint32 i
  | .uint64, .int i => writeUint64 i
  | .sint32, .int i => writeSint32 i
  | .sint64, .int i => writeSint64 i
  | .bool, .bool b => writeBool b
  | .fixed32, .int i => writeFixed32 i
  | .sfixed32, .int i => writeSfixed32 i
  | .float, .float bits => .ok (LittleEndian.encode 4 bits.toNat)
  | .fixed64, .int i => writeFixed64 i
  | .sfixed64, .int i => writeSfixed64 i
  | .double, .double bits => .ok (LittleEndian.encode 8 bits.toNat)
  | .bytes, .bytes b => writeBytes b
  | .string, .string t => writeString t
  | .enum _, .int i => writeInt32 i
  | _, _ => .error .typeError

end Codec

structure Field where
  protoName : FieldKey
  number : Nat
  codec : Codec
  repeated : Bool
  packed : Bool
  explicitPresence : Bool
  required : Bool
  oneof : Option Text
  defaultFactory : Option Scalar
  mapKeyCodec : Option Codec
  immutable : Bool
  immutableOneof : Bool

namespace Field

def default (f : Field) : Scalar :=
  f.defaultFactory.getD f.codec.default

def message (f : Field) : Bool :=
  f.codec.isMessage

def map (f : Field) : Bool :=
  f.mapKeyCodec.isSome

def hasPresence (f : Field) : Bool :=
  f.explicitPresence || f.required || (f.message && !f.map) || f.oneof.isSome

end Field

structure Extension where
  fullName : Text
  number : Nat
  valueCodec : Codec
  defaultFactory : Option Scalar
  repeated : Bool
  packed : Bool

-- An extension reads and writes values as a field with explicit presence does.
def Extension.field (e : Extension) : Field where
  protoName := e.fullName
  number := e.number
  codec := e.valueCodec
  repeated := e.repeated
  packed := e.packed
  explicitPresence := true
  required := false
  oneof := none
  defaultFactory := e.defaultFactory
  mapKeyCodec := none
  immutable := false
  immutableOneof := false

-- The source's dictionaries with fields or extensions as keys have these keys here: different fields of
-- a class have different numbers, and so have its registered extensions.
inductive Key
  | field (number : Nat)
  | extension (number : Nat)
  deriving DecidableEq

-- A message class with the extensions that its registry holds for it.
structure MessageClass where
  fields : List Field
  extensions : List Extension
  maxNestingDepth : Nat
  nodup : (fields.map Field.number).Nodup
  nodup_extensions : (extensions.map Extension.number).Nodup

namespace MessageClass

def hardMaxDepth : Nat := 100

def nestingLimit (c : MessageClass) : Nat :=
  min c.maxNestingDepth hardMaxDepth

def field? (c : MessageClass) (number : Nat) : Option Field :=
  c.fields.find? (·.number = number)

def extension? (c : MessageClass) (number : Nat) : Option Extension :=
  c.extensions.find? (·.number = number)

def member? (c : MessageClass) : Key → Option Field
  | .field n => c.field? n
  | .extension n => (c.extension? n).map Extension.field

def memberOf (c : MessageClass) (number : Nat) : Option (Key × Field) :=
  match c.field? number, c.extension? number with
  | some f, _ => some (.field number, f)
  | none, some e => some (.extension number, e.field)
  | none, none => none

end MessageClass

abbrev Schema := ClassId → MessageClass

end Protos
