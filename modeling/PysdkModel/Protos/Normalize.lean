import PysdkModel.Protos.Schema

namespace Protos

namespace Scalar

-- Booleans are integers in Python.
def number : Scalar → Scalar
  | .bool b => .int b.toInt
  | s => s

-- Python's `==` between values that may be booleans or integers. Floats agree with themselves only.
def agrees : Scalar → Scalar → Prop
  | .bool b, .int i => b.toInt = i
  | .int i, .bool b => i = b.toInt
  | a, b => a = b

-- A Python object occupies at most `sys.maxsize` bytes. For a string this concerns the bytes that
-- `encode("utf-8")` returns.
def IsObject : Scalar → Prop
  | .bytes b => b.length < 2 ^ 63
  | .string t => ∀ b, t.encodeUtf8 = some b → b.length < 2 ^ 63
  | _ => True

end Scalar

namespace Codec

def isExact : Codec → Bool
  | .float | .double | .message _ => false
  | _ => true

-- The range of a C `long` on platforms on which it has 64 bits.
def isLong (i : Int) : Bool :=
  -2 ^ 63 ≤ i && i < 2 ^ 63

-- What a writer takes a value for that has not been normalized: `write_bool` tests its truth, and the writers
-- of integers treat a boolean as a number.
def written : Codec → Scalar → Scalar
  | .bool, .int i => .bool (i ≠ 0)
  | .bool, .bool b => .bool b
  | _, v => v.number

-- The normalizers, with `none` for the values that they reject. The codecs of floats convert integers and
-- round, which is left out: their values are floats that are normalized already.
def normalize : Codec → Scalar → Option Scalar
  | .bool, .int i => if isLong i then some (.bool (i ≠ 0)) else none
  | .string, .bytes b => (Text.decodeUtf8 b).map .string
  | c, v => if c.accepts (c.written v) then some (c.written v) else none

-- `write` of a value as it is. A writer of strings raises for `bytes`, which have no `encode`.
def writeRaw (c : Codec) (v : Scalar) : Except EncodeError Bytes :=
  c.write (c.written v)

-- Writing the value in front of the bytes `t` and reading gives it back and stops at `t`.
def RoundTrips (c : Codec) (v : Scalar) (t : Bytes) : Prop :=
  ∃ b s, c.writeRaw v = .ok b ∧ c.read (b ++ t) = .ok (s, t) ∧ s.agrees v

def RoundTripsPacked (c : Codec) (vs : List Scalar) (t : Bytes) : Prop :=
  ∃ b ss, BinaryWriter.writePacked vs c.writeRaw = .ok b ∧
    BinaryReader.readPacked c.read (b ++ t) = .ok (ss, t) ∧ List.Forall₂ Scalar.agrees ss vs

-- The values that their wire format represents: a boolean is no other number, and a string is not given as
-- bytes and has no surrogates.
def Represents : Codec → Scalar → Prop
  | .bool, .int i => i = 0 ∨ i = 1
  | .string, .bytes _ => False
  | .string, .string t => t.IsScalar
  | _, _ => True

end Codec

end Protos
