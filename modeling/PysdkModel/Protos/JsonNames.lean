import PysdkModel.Lib.Dict
import PysdkModel.Protos.Message

-- The keys of ProtoJSON objects: how `message_to_dict` names fields and how `parse_dict` finds them.

namespace Protos

inductive JsonValue
  | null
  | bool (b : Bool)
  | int (i : Int)
  | float (bits : BitVec 64)
  | string (t : Text)
  | array (vs : List JsonValue)
  | object (entries : List (Text × JsonValue))

structure JsonField extends Field where
  jsonName : Option Text
  isPublic : Bool

structure JsonExtension extends Extension where
  isPublic : Bool

-- The options of `message_to_dict`. The conversion of single values is a parameter: for a nested message it
-- is `message_to_value`.
structure JsonOptions where
  preservingProtoFieldName : Bool
  alwaysPrintFieldsWithNoPresence : Bool
  encodeValue : Codec → Value Message → JsonValue
  encodeMapKey : Codec → Scalar → Text

namespace JsonField

def underscore : CodePoint := 0x5F

section

-- `str.upper` of a single character, which may be several characters.
variable (upper : CodePoint → Text)

def capitalize : Text → Text
  | [] => []
  | c :: rest => upper c ++ rest

def json (f : JsonField) : Text :=
  match f.jsonName with
  | some name => name
  | none =>
    match f.protoName.splitOn underscore with
    | [] => []
    | first :: parts => first ++ (parts.map (capitalize upper)).flatten

-- The key that `message_to_dict` uses for a field.
def emittedKey (preserving : Bool) (f : JsonField) : Text :=
  if preserving then f.protoName else f.json upper

-- One iteration of the loop of `parse_dict` that fills its table of names.
def declare (names : Dict Text JsonField) (f : JsonField) : Dict Text JsonField :=
  if f.isPublic then (names.set f.protoName f).set (f.json upper) f else names

def names (fields : List JsonField) : Dict Text JsonField :=
  fields.foldl (declare upper) ∅

-- What the table of names may hold for a key.
def Claims (f : JsonField) (key : Text) : Prop :=
  f.isPublic ∧ (key = f.protoName ∨ key = f.json upper)

end

-- What `message_to_dict` stores for a field, with `none` if it skips it. A present field has a value.
def encoded (o : JsonOptions) (m : Message) (f : JsonField) : Option JsonValue :=
  match f.mapKeyCodec with
  | some keyCodec =>
    let items := (m.mapItems f.key).entries
    if items.isEmpty && !o.alwaysPrintFieldsWithNoPresence then
      none
    else
      some (.object (items.map fun e => (o.encodeMapKey keyCodec e.1, o.encodeValue f.codec e.2)))
  | none =>
    if f.repeated then
      let items := m.repeatedItems f.key
      if items.isEmpty && !o.alwaysPrintFieldsWithNoPresence then
        none
      else
        some (.array (items.map (o.encodeValue f.codec)))
    else
      match f.hasPresence, m.values f.key with
      | true, some (.singular v) => if m.present f.key then some (o.encodeValue f.codec v) else none
      | true, _ => none
      | false, value =>
        let current :=
          match value with
          | some (.singular v) => v
          | _ => .scalar f.default
        if Message.equalsDefault f.toField (some (.singular current)) && !o.alwaysPrintFieldsWithNoPresence then
          none
        else
          some (o.encodeValue f.codec current)

end JsonField

namespace JsonExtension

-- The extensions have their full names in brackets as keys.
def key (e : JsonExtension) : Text :=
  0x5B :: e.fullName ++ [0x5D]

def encoded (o : JsonOptions) (m : Message) (e : JsonExtension) : Option JsonValue :=
  if e.repeated then
    let items := m.repeatedItems (.extension e.number)
    if items.isEmpty then none else some (.array (items.map (o.encodeValue e.valueCodec)))
  else
    match m.values (.extension e.number) with
    | some (.singular v) => if m.present (.extension e.number) then some (o.encodeValue e.valueCodec v) else none
    | _ => none

end JsonExtension

section

variable (upper : CodePoint → Text) (o : JsonOptions) (m : Message)

def emitField (result : Dict Text JsonValue) (f : JsonField) : Dict Text JsonValue :=
  match f.encoded o m with
  | some v => if f.isPublic then result.set (f.emittedKey upper o.preservingProtoFieldName) v else result
  | none => result

-- The loop over the extensions, which come in the order of their numbers.
def emitExtension (result : Dict Text JsonValue) (e : JsonExtension) : Dict Text JsonValue :=
  match e.encoded o m with
  | some v => if e.isPublic then result.set e.key v else result
  | none => result

def messageToDict (fields : List JsonField) (extensions : List JsonExtension) : Dict Text JsonValue :=
  extensions.foldl (emitExtension o m) (fields.foldl (emitField upper o m) ∅)

def Emits (f : JsonField) : Prop :=
  f.isPublic ∧ (f.encoded o m).isSome

end

end Protos
