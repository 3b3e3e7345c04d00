import PysdkModel.Protos.Message

namespace Protos

namespace Key

def formatMapKey : Scalar → Text
  | .string t => [0x5B, 0x22] ++ t.flatMap (fun c => if c = 0x22 then [0x5C, 0x22] else [c]) ++ [0x22, 0x5D]
  | .bool b   => .ofString (if b then "[true]" else "[false]")
  | .int i    => .ofString s!"[{i}]"
  | _ => []

end Key

namespace Extension

def name (e : Extension) : Text :=
  (e.fullName.reverse.takeWhile (· ≠ 0x2E)).reverse

end Extension

namespace Message

section

variable (find : Message → Except EncodeError (List Text))

-- The errors of the messages in a container, each with the text that locates the message.
def itemErrors (items : List (Text × Value Message)) : Except EncodeError (List Text) := do
  let errors ← items.mapM fun (path, item) =>
    match item.message? with
    | none => .ok []
    | some c => do return (← find c).map (path ++ [0x2E] ++ ·)
  return errors.flatten

def memberErrors (m : Message) (k : Key) (f : Field) (name : Text) : Except EncodeError (List Text) :=
  match m.values k with
  | some (.singular v) => if f.message && m.present k then itemErrors find [(name, v)] else .ok []
  | some (.repeated vs) =>
    if f.repeated && f.message then
      itemErrors find (vs.zipIdx.map fun (v, i) => (name ++ .ofString s!"[{i}]", v))
    else
      .ok []
  | some (.map d) =>
    if f.map && f.message then
      itemErrors find (d.entries.map fun (key, v) => (name ++ Key.formatMapKey key, v))
    else
      .ok []
  | none => .ok []

end

def sortedFields (c : MessageClass) : List Field :=
  c.fields.insertionSort (·.number ≤ ·.number)

def sortedExtensions (c : MessageClass) : List Extension :=
  c.extensions.insertionSort (·.number ≤ ·.number)

-- `FindInitializationErrors` with the number of levels that are left. A message is never nested in
-- itself, because messages are copied when they are stored.
def findInitializationErrors (S : Schema) : Nat → Message → Except EncodeError (List Text)
  | 0, _ => .error .messageNesting
  | n + 1, m => do
    let find := findInitializationErrors S n
    let fields ← (S m.cls).fields.mapM fun f => do
      let missing := if f.required && !m.present f.key then [f.protoName] else []
      return missing ++ (← memberErrors find m f.key f f.protoName)
    let extensions ← (sortedExtensions (S m.cls)).mapM fun e => memberErrors find m e.key e.field e.name
    return fields.flatten ++ extensions.flatten

open BinaryWriter

section

variable (encode : Message → Except EncodeError Bytes)

def writeValue : Codec → Value Message → Except EncodeError Bytes
  | .message _, .message m => do writeBytes (← encode m)
  | c, .scalar s => c.write s
  | _, .message _ => .error .typeError

def writeField (f : Field) (v : Value Message) : Except EncodeError Bytes := do
  return (← writeTag f.number f.codec.wireType) ++ (← writeValue encode f.codec v)

def writeEntry (f : Field) (keyCodec : Codec) (entry : Scalar × Value Message) : Except EncodeError Bytes := do
  let keyTag ← writeTag 1 keyCodec.wireType
  let key ← keyCodec.write entry.1
  let valueTag ← writeTag 2 f.codec.wireType
  let value ← writeValue encode f.codec entry.2
  let tag ← writeTag f.number .lengthDelimited
  return tag ++ (← writeBytes (keyTag ++ key ++ (valueTag ++ value)))

def writtenEntries (deterministic : Bool) (d : FinMap Scalar (Value Message)) : List (Scalar × Value Message) :=
  if deterministic then d.entries.insertionSort (·.1.le ·.1) else d.entries

-- The body of the loop over the fields, and of the loop of `write_to` over the extensions.
def writeMember (deterministic : Bool) (m : Message) (k : Key) (f : Field) : Except EncodeError Bytes :=
  match f.mapKeyCodec, m.values k with
  | some keyCodec, some (.map d) => do
    return (← (writtenEntries deterministic d).mapM (writeEntry encode f keyCodec)).flatten
  | some _, _ => .ok []
  | none, value =>
    if f.repeated then
      match value with
      | some (.repeated vs) =>
        if vs.isEmpty then
          .ok []
        else if f.packed && f.codec.packable then do
          return (← writeTag f.number .lengthDelimited) ++ (← writePacked vs (writeValue encode f.codec))
        else do
          return (← vs.mapM (writeField encode f)).flatten
      | _ => .ok []
    else if f.hasPresence then
      match m.present k, value with
      | false, _ => .ok []
      | true, some (.singular v) => writeField encode f v
      | true, _ => .error .typeError
    else
      match value with
      | some (.singular v) => if equalsDefault f value then .ok [] else writeField encode f v
      | _ => .ok []

end

-- `SerializeToString` with the number of levels that are left.
def serialize (S : Schema) (deterministic : Bool) : Nat → Message → Except EncodeError Bytes
  | 0, _ => .error .messageNesting
  | n + 1, m => do
    let missing ← findInitializationErrors S (S m.cls).nestingLimit m
    if missing ≠ [] then
      throw (.missingRequired missing)
    let encode := serialize S deterministic n
    let fields ← (sortedFields (S m.cls)).mapM fun f => writeMember encode deterministic m f.key f
    let extensions ← (sortedExtensions (S m.cls)).mapM fun e =>
      writeMember encode deterministic m e.key e.field
    return fields.flatten ++ extensions.flatten ++ m.unknownFields.flatten

def serializeToString (S : Schema) (deterministic : Bool) (m : Message) : Except EncodeError Bytes :=
  serialize S deterministic (S m.cls).nestingLimit m

end Message

end Protos
