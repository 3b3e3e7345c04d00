import PysdkModel.Protos.Message

namespace Protos

namespace Message

-- Whether a new occurrence of a message is merged into the stored one. A field also has to be present,
-- an extension does not.
def mergesInto (m : Message) (k : Key) (f : Field) : Bool :=
  f.message && (m.values k).isSome &&
    match k with
    | .field _ => m.present k
    | .extension _ => true

section

variable (copy : Message → Message) (merge : Message → Message → Message)

def mergeValue (m : Message) (k : Key) (f : Field) (v : Value Message) : Value Message :=
  match v, (m.values k).bind Slot.message? with
  | .message c, some stored => if m.mergesInto k f then .message (merge stored (copy c)) else .message (copy c)
  | v, _ => v.map copy

-- Storing a singular value. The notification of a merged child selects its field once more, which
-- changes nothing.
def storeSingular (S : Schema) (m : Message) (k : Key) (f : Field) (v : Value Message) : Message :=
  m.storeValue S k f (mergeValue copy merge m k f v)

-- The body of the loop of `MergeFrom` over the fields, and of `merge_from` over the extensions.
def mergeMember (S : Schema) (other : Message) (m : Message) (k : Key) (f : Field) : Message :=
  match f.mapKeyCodec, other.values k with
  | some _, some (.map d) => d.entries.foldl (fun m (key, v) => m.setEntry k key (v.map copy)) m
  | some _, _ => m
  | none, value =>
    if f.repeated then
      -- Only an extension also creates its container for an empty one.
      match k, value with
      | .field _, some (.repeated vs) => if vs.isEmpty then m else m.extend k (vs.map (Value.map copy))
      | .extension _, some (.repeated vs) => m.extend k (vs.map (Value.map copy))
      | _, _ => m
    else if f.hasPresence && !other.present k then
      m
    else if !f.hasPresence && (value.isNone || equalsDefault f value) then
      m
    else
      match value with
      | some (.singular v) => storeSingular copy merge S m k f v
      | _ => m

end

-- `MergeFrom`. Messages are nested finitely, and a number of levels that suffices for `other` is given.
def mergeFrom (S : Schema) : Nat → Message → Message → Message
  | 0, m, _ => m
  | n + 1, m, other =>
    let merge := mergeFrom S n
    let copy := fun c => merge (.empty c.cls) c
    let m := (S m.cls).fields.foldl (fun m f => mergeMember copy merge S other m f.key f) m
    let m := (S m.cls).extensions.foldl (fun m e => mergeMember copy merge S other m e.key e.field) m
    m.addUnknown other.unknownFields

-- `CopyFrom` of another object.
def copyFrom (S : Schema) (n : Nat) (m other : Message) : Message :=
  mergeFrom S n m.clear other

-- The `clone` of a message codec.
def copy (S : Schema) (n : Nat) (m : Message) : Message :=
  mergeFrom S n (.empty m.cls) m

end Message

end Protos
