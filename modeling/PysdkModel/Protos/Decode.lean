import PysdkModel.Protos.Merge
import PysdkModel.Protos.Theorems.Wire

namespace Protos

-- What a field reads from one record. A map entry is missing if it is invalid.
inductive Decoded (μ : Type)
  | entry (e : Option (Scalar × Value μ))
  | packed (vs : List Scalar)
  | value (v : Value μ)

-- One record of a message with its bytes, and what a field or extension has read from it.
structure Record (μ : Type) where
  raw : Bytes
  decoded : Option (Key × Field × Decoded μ)

def Decoded.isUnknown (f : Field) : Decoded Message → Bool
  | .entry e => e.isNone
  | .packed _ => false
  | .value v => v.closedEnumUnknown f.codec

def Record.isUnknown (r : Record Message) : Bool :=
  r.decoded.all fun (_, f, d) => d.isUnknown f

abbrev MessageDecoder := ClassId → Bytes → Except DecodeFailure Message

abbrev MessageMerger := Message → Message → Except DecodeFailure Message

namespace Message

open BinaryReader

section

variable (decode : MessageDecoder)

def readMessage (c : ClassId) : BinaryReader Message := do
  let payload ← readBytes
  fun i =>
    match decode c payload with
    | .error e => .error e
    | .ok m => .ok (m, i)

def readValue : Codec → BinaryReader (Value Message)
  | .message c => do return .message (← readMessage decode c)
  | c => do return .scalar (← c.read)

structure EntryState where
  key : Scalar
  value : Value Message
  valueSeen : Bool
  invalid : Bool

section

variable (merge : MessageMerger) (f : Field) (keyCodec : Codec)

def entryValue (s : EntryState) (v : Value Message) : Except DecodeFailure EntryState :=
  match v, s.value with
  | .scalar x, _ =>
    if f.codec.closedEnumUnknown x then
      return { s with invalid := true, valueSeen := true }
    else
      return { s with value := v, valueSeen := true }
  | .message c, .message c' =>
    if s.valueSeen then do
      return { s with value := .message (← merge c' c) }
    else
      return { s with value := v, valueSeen := true }
  | _, _ => return { s with value := v, valueSeen := true }

def readEntryField (s : EntryState) : BinaryReader EntryState := do
  let (number, wireType) ← readTag
  if number = 1 ∧ wireType = keyCodec.wireType then
    return { s with key := ← keyCodec.read }
  else if number = 2 ∧ wireType = f.codec.wireType then
    let v ← readValue decode f.codec
    entryValue merge f s v
  else
    skipValue number wireType
    return { s with invalid := true }

variable {decode merge f keyCodec}

theorem streaming_readMessage {c : ClassId} : (readMessage decode c).Streaming := by
  refine streaming_readBytes.bind fun payload => ?_
  intro i a rest h
  cases hd : decode c payload
  case error => simp [hd] at h
  case ok m =>
    simp only [hd] at h
    cases h
    exact ⟨[], rfl, fun rest => by simp⟩

theorem streaming_readValue {c : Codec} : (readValue decode c).Streaming := by
  cases c
  case message => exact streaming_readMessage.bind fun _ => .pure
  all_goals exact Codec.streaming_read.bind fun _ => .pure

theorem progress_readEntryField {s : EntryState} : (readEntryField decode merge f keyCodec s).Progress := by
  refine progress_readTag.bind fun (number, wireType) => ?_
  refine .ite ?_ <| .ite ?_ ?_
  · exact Codec.streaming_read.bind fun _ => .pure
  · exact streaming_readValue.bind fun _ => .lift
  · exact streaming_skipValue.bind fun _ => .pure

variable (decode merge f keyCodec)

-- The loop of `_decode_map_entry` over the bytes of the entry.
def readEntry (s : EntryState) (i : Bytes) : Except DecodeFailure EntryState :=
  if i = [] then
    .ok s
  else
    match _h : readEntryField decode merge f keyCodec s i with
    | .error e => .error e
    | .ok (s, rest) => readEntry s rest
termination_by i.length
decreasing_by exact progress_readEntryField _ _ _ _h

def entryStart : EntryState where
  key := keyCodec.default
  value := f.codec.defaultValue
  valueSeen := false
  invalid := false

-- `set_owned` normalizes the key and the value.
def decodeMapEntry (payload : Bytes) : Except DecodeFailure (Option (Scalar × Value Message)) :=
  match readEntry decode merge f keyCodec (entryStart f keyCodec) payload with
  | .error e => .error e
  | .ok s =>
    if s.invalid then
      .ok none
    else if keyCodec.accepts s.key && s.value.acceptedBy f.codec then
      .ok (some (s.key, s.value))
    else
      .error .invalidValue

-- What `_try_decode_field` and `try_decode` read. There is nothing to read if the wire type does not fit.
def readMember (wireType : WireType) : BinaryReader (Option (Decoded Message)) :=
  match f.mapKeyCodec with
  | some keyCodec =>
    if wireType ≠ .lengthDelimited then
      return none
    else do
      let payload ← readBytes
      fun i =>
        match decodeMapEntry decode merge f keyCodec payload with
        | .error e => .error e
        | .ok e => .ok (some (.entry e), i)
  | none =>
    if f.repeated && f.codec.packable && wireType = .lengthDelimited then
      return some (.packed (← readPacked f.codec.read))
    else if wireType ≠ f.codec.wireType then
      return none
    else
      return some (.value (← readValue decode f.codec))

end

variable (merge : MessageMerger) (c : MessageClass)

def readRecordBody (number : Nat) (wireType : WireType) : BinaryReader (Option (Key × Field × Decoded Message)) :=
  match c.memberOf number with
  | none => do
    skipValue number wireType
    return none
  | some (k, f) => do
    match ← readMember decode merge f wireType with
    | some d => return some (k, f, d)
    | none =>
      skipValue number wireType
      return none

def readRecord : BinaryReader (Record Message) := do
  let (decoded, raw) ← Reader.withRaw do
    let (number, wireType) ← readTag
    readRecordBody decode merge c number wireType
  return { raw, decoded }

variable {decode merge c}

theorem streaming_readMember {f : Field} {wireType : WireType} : (readMember decode merge f wireType).Streaming := by
  unfold readMember
  split
  case h_1 keyCodec _ =>
    refine .ite .pure <| streaming_readBytes.bind fun payload => ?_
    intro i a rest h
    cases hd : decodeMapEntry decode merge f keyCodec payload
    case error => simp [hd] at h
    case ok e =>
      simp only [hd] at h
      cases h
      exact ⟨[], rfl, fun rest => by simp⟩
  case h_2 =>
    refine .ite ?_ <| .ite .pure ?_
    · exact (streaming_readPacked Codec.streaming_read).bind fun _ => .pure
    · exact streaming_readValue.bind fun _ => .pure

theorem streaming_readRecordBody {number : Nat} {wireType : WireType} :
    (readRecordBody decode merge c number wireType).Streaming := by
  have hskip : (skipValue number wireType >>= fun _ =>
      (pure none : BinaryReader (Option (Key × Field × Decoded Message)))).Streaming :=
    streaming_skipValue.bind fun _ => .pure
  unfold readRecordBody
  split
  case h_1 => exact hskip
  case h_2 k f _ =>
    refine streaming_readMember.bind fun d => ?_
    cases d
    case none => exact hskip
    case some => exact .pure

theorem streaming_readRecord : (readRecord decode merge c).Streaming :=
  (streaming_readTag.bind fun _ => streaming_readRecordBody).withRaw.bind fun _ => .pure

theorem progress_readRecord : (readRecord decode merge c).Progress :=
  (progress_readTag.bind fun _ => streaming_readRecordBody).withRaw.bind fun _ => .pure

variable (decode) (merge : Message → Message → Message) (copy : Message → Message) (S : Schema)

-- A value of a closed enum that is not declared becomes an unknown field of its own.
def appendPacked (k : Key) (f : Field) (m : Message) (s : Scalar) : Message :=
  if f.codec.closedEnumUnknown s then
    match BinaryWriter.writeTag f.number f.codec.wireType, f.codec.write s with
    | .ok tag, .ok value => m.addUnknown [tag ++ value]
    | _, _ => m
  else
    m.extend k [.scalar s]

def storeDecoded (m : Message) (k : Key) (f : Field) (raw : Bytes) : Decoded Message → Message
  | .entry none => m.addUnknown [raw]
  | .entry (some (key, v)) => m.setEntry k key (v.map copy)
  | .packed vs => vs.foldl (appendPacked k f) m
  | .value v =>
    if v.closedEnumUnknown f.codec then
      m.addUnknown [raw]
    else if f.repeated then
      m.extend k [v.map copy]
    else
      storeSingular copy merge S (m.clearSelected S f) k f v

def storeRecord (m : Message) (r : Record Message) : Message :=
  match r.decoded with
  | none => m.addUnknown [r.raw]
  | some (k, f, d) => storeDecoded merge copy S m k f r.raw d

abbrev total (a b : Message) : Except DecodeFailure Message :=
  .ok (merge a b)

-- The loop of `_merge_from_string`. If a record cannot be read, the records before it have been stored.
def mergeRecords (m : Message) (i : Bytes) : Message × Option DecodeFailure :=
  if i = [] then
    (m, none)
  else
    match _h : readRecord decode (total merge) (S m.cls) i with
    | .error e => (m, some e)
    | .ok (r, rest) => mergeRecords (storeRecord merge copy S m r) rest
termination_by i.length
decreasing_by exact progress_readRecord _ _ _ _h

end

def result : Message × Option DecodeFailure → Except DecodeFailure Message
  | (m, none) => .ok m
  | (_, some e) => .error e

-- `MergeFromString` with the number of levels that are left. A nested message has at most as many
-- levels, so that number suffices for copying it.
def mergeString (S : Schema) : Nat → Message → Bytes → Message × Option DecodeFailure
  | 0, m, _ => (m, some .messageNesting)
  | n + 1, m, payload =>
    let decode := fun c b => result (mergeString S n (.empty c) b)
    mergeRecords decode (mergeFrom S n) (copy S n) S m payload

def mergeFromString (S : Schema) (m : Message) (payload : Bytes) : Message × Option DecodeFailure :=
  mergeString S (S m.cls).nestingLimit m payload

def parseFromString (S : Schema) (m : Message) (payload : Bytes) : Message × Option DecodeFailure :=
  mergeFromString S m.clear payload

def fromString (S : Schema) (c : ClassId) (payload : Bytes) : Except DecodeFailure Message :=
  result (mergeFromString S (.empty c) payload)

end Message

end Protos
