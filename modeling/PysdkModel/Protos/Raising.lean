import PysdkModel.Protos.Decode

-- Storing with every check that the containers and `MergeFrom` make. The decoder of messages leaves these checks
-- out, and they are shown to succeed.

namespace Protos

namespace Raising

open Message

def normalize (c : Codec) (v : Value Message) : Except DecodeFailure (Value Message) :=
  if v.acceptedBy c then .ok v else .error .invalidValue

def normalizeKey (c : Codec) (key : Scalar) : Except DecodeFailure Scalar :=
  if c.accepts key then .ok key else .error .invalidValue

section

variable (merge : MessageMerger)

-- `copy` of a codec. A message is merged into a new one of the codec's class.
def copy : Codec → Value Message → Except DecodeFailure (Value Message)
  | .message c, .message d => do return .message (← merge (.empty c) d)
  | _, v => return v

def prepare (c : Codec) (v : Value Message) : Except DecodeFailure (Value Message) := do
  copy merge c (← normalize c v)

def append (m : Message) (k : Key) (f : Field) (v : Value Message) : Except DecodeFailure Message := do
  return m.extend k [← prepare merge f.codec v]

def extend (m : Message) (k : Key) (f : Field) (vs : List (Value Message)) : Except DecodeFailure Message := do
  return m.extend k (← vs.mapM (prepare merge f.codec))

def setItem (m : Message) (k : Key) (f : Field) (keyCodec : Codec) (key : Scalar) (v : Value Message) :
    Except DecodeFailure Message := do
  let key ← normalizeKey keyCodec key
  return m.setEntry k key (← prepare merge f.codec v)

def mergeValue (m : Message) (k : Key) (f : Field) (v : Value Message) : Except DecodeFailure (Value Message) := do
  match ← copy merge f.codec v, (m.values k).bind Slot.message? with
  | .message c, some stored =>
    if m.mergesInto k f then return .message (← merge stored c) else return .message c
  | v, _ => return v

def storeSingular (S : Schema) (m : Message) (k : Key) (f : Field) (v : Value Message) :
    Except DecodeFailure Message := do
  return m.storeValue S k f (← mergeValue merge m k f v)

def mergeMember (S : Schema) (other : Message) (m : Message) (k : Key) (f : Field) : Except DecodeFailure Message :=
  match f.mapKeyCodec, other.values k with
  | some keyCodec, some (.map d) => d.entries.foldlM (fun m (key, v) => setItem merge m k f keyCodec key v) m
  | some _, _ => return m
  | none, value =>
    if f.repeated then
      match k, value with
      | .field _, some (.repeated vs) => if vs.isEmpty then return m else extend merge m k f vs
      | .extension _, some (.repeated vs) => extend merge m k f vs
      | _, _ => return m
    else if f.hasPresence && !other.present k then
      return m
    else if !f.hasPresence && (value.isNone || equalsDefault f value) then
      return m
    else
      match value with
      | some (.singular v) => storeSingular merge S m k f v
      | _ => return m

end

-- `MergeFrom` with the number of levels that are left for its recursion.
def mergeFrom (S : Schema) : Nat → Message → Message → Except DecodeFailure Message
  | 0, _, _ => .error .recursionError
  | n + 1, m, other =>
    if other.cls ≠ m.cls then
      .error .differentType
    else do
      let merge := mergeFrom S n
      let m ← (S m.cls).fields.foldlM (fun m f => mergeMember merge S other m f.key f) m
      let m ← (S m.cls).extensions.foldlM (fun m e => mergeMember merge S other m e.key e.field) m
      return m.addUnknown other.unknownFields

section

variable (decode : MessageDecoder)
  (merge : MessageMerger) (S : Schema)

def appendPacked (k : Key) (f : Field) (m : Message) (s : Scalar) : Except DecodeFailure Message :=
  if f.codec.closedEnumUnknown s then do
    let tag ← (BinaryWriter.writeTag f.number f.codec.wireType).mapError .encodeError
    let value ← (f.codec.write s).mapError .encodeError
    return m.addUnknown [tag ++ value]
  else
    append merge m k f (.scalar s)

def storeDecoded (m : Message) (k : Key) (f : Field) (raw : Bytes) : Decoded Message → Except DecodeFailure Message
  | .entry none => return m.addUnknown [raw]
  | .entry (some (key, v)) =>
    match f.mapKeyCodec with
    | some keyCodec => setItem merge m k f keyCodec key v
    | none => return m
  | .packed vs => vs.foldlM (appendPacked merge k f) m
  | .value v =>
    if v.closedEnumUnknown f.codec then
      return m.addUnknown [raw]
    else if f.repeated then
      append merge m k f v
    else
      storeSingular merge S (m.clearSelected S f) k f v

def storeRecord (m : Message) (r : Record Message) : Except DecodeFailure Message :=
  match r.decoded with
  | none => return m.addUnknown [r.raw]
  | some (k, f, d) => storeDecoded merge S m k f r.raw d

def mergeRecords (m : Message) (i : Bytes) : Except DecodeFailure Message :=
  if i = [] then
    .ok m
  else
    match _h : readRecord decode merge (S m.cls) i with
    | .error e => .error e
    | .ok (r, rest) => do
      let m ← storeRecord merge S m r
      mergeRecords m rest
termination_by i.length
decreasing_by exact progress_readRecord _ _ _ _h

end

-- What has been decoded has fewer levels than are left, and the new message of a map entry without a value
-- is one level.
def mergeString (S : Schema) : Nat → Message → Bytes → Except DecodeFailure Message
  | 0, _, _ => .error .messageNesting
  | n + 1, m, payload => mergeRecords (fun c b => mergeString S n (.empty c) b) (mergeFrom S (n + 1)) S m payload

-- `MergeFromString` with the number that it returns.
def mergeFromString (S : Schema) (m : Message) (payload : Bytes) : Except DecodeFailure (Message × Nat) := do
  let m ← mergeString S (S m.cls).nestingLimit m payload
  return (m, payload.length)

end Raising

end Protos
