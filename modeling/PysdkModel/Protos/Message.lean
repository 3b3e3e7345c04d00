import PysdkModel.Lib.FinMap
import PysdkModel.Protos.Schema

namespace Protos

inductive Value (μ : Type)
  | scalar (s : Scalar)
  | message (m : μ)

-- What a message stores for a field or an extension: a value, a `RepeatedValues` or a `MapValues`.
inductive Slot (μ : Type)
  | singular (v : Value μ)
  | repeated (vs : List (Value μ))
  | map (d : FinMap Scalar (Value μ))

-- The dictionaries and sets of a message. A oneof refers to the number of its selected field.
structure MessageState (μ : Type) where
  values : Key → Option (Slot μ)
  present : Key → Bool
  oneofs : Text → Option Nat
  unknownFields : List Bytes

inductive Message
  | mk (cls : ClassId) (state : MessageState Message)

def Field.key (f : Field) : Key :=
  .field f.number

def Extension.key (e : Extension) : Key :=
  .extension e.number

namespace Value

variable {μ ν : Type}

def message? : Value μ → Option μ
  | .message m => some m
  | .scalar _ => none

def map (f : μ → ν) : Value μ → Value ν
  | .message m => .message (f m)
  | .scalar s => .scalar s

end Value

namespace Slot

variable {μ : Type}

def isTruthy : Slot μ → Bool
  | .singular _ => true
  | .repeated vs => !vs.isEmpty
  | .map d => !d.isEmpty

def elements : Slot μ → List μ
  | .singular _ => []
  | .repeated vs => vs.filterMap Value.message?
  | .map d => d.values.filterMap Value.message?

def message? : Slot μ → Option μ
  | .singular v => v.message?
  | _ => none

-- What is left of a slot that is cleared: containers are kept.
def cleared : Slot μ → Option (Slot μ)
  | .singular _ => none
  | .repeated _ => some (.repeated [])
  | .map _ => some (.map ∅)

end Slot

namespace Message

def cls : Message → ClassId
  | .mk c _ => c

def state : Message → MessageState Message
  | .mk _ s => s

def values (m : Message) : Key → Option (Slot Message) :=
  m.state.values

def present (m : Message) : Key → Bool :=
  m.state.present

def oneofs (m : Message) : Text → Option Nat :=
  m.state.oneofs

def unknownFields (m : Message) : List Bytes :=
  m.state.unknownFields

def empty (c : ClassId) : Message :=
  .mk c {
    values := fun _ => none
    present := fun _ => false
    oneofs := fun _ => none
    unknownFields := []
  }

-- `Clear`, with `clear_all` of the extensions.
def clear (m : Message) : Message :=
  .mk m.cls { (empty m.cls).state with values := fun k => (m.values k).bind Slot.cleared }

def setValue (m : Message) (k : Key) (v : Option (Slot Message)) : Message :=
  .mk m.cls { m.state with values := Function.update m.values k v }

def setPresent (m : Message) (k : Key) (b : Bool) : Message :=
  .mk m.cls { m.state with present := Function.update m.present k b }

def setOneof (m : Message) (o : Text) (n : Option Nat) : Message :=
  .mk m.cls { m.state with oneofs := Function.update m.oneofs o n }

def addUnknown (m : Message) (records : List Bytes) : Message :=
  .mk m.cls { m.state with unknownFields := m.unknownFields ++ records }

section

variable {m : Message} {k : Key} {v : Option (Slot Message)} {b : Bool} {o : Text} {n : Option Nat}

@[simp] theorem cls_setValue : (m.setValue k v).cls = m.cls := rfl
@[simp] theorem values_setValue : (m.setValue k v).values = Function.update m.values k v := rfl
@[simp] theorem present_setValue : (m.setValue k v).present = m.present := rfl
@[simp] theorem oneofs_setValue : (m.setValue k v).oneofs = m.oneofs := rfl
@[simp] theorem unknownFields_setValue : (m.setValue k v).unknownFields = m.unknownFields := rfl

@[simp] theorem cls_setPresent : (m.setPresent k b).cls = m.cls := rfl
@[simp] theorem values_setPresent : (m.setPresent k b).values = m.values := rfl
@[simp] theorem present_setPresent : (m.setPresent k b).present = Function.update m.present k b := rfl
@[simp] theorem oneofs_setPresent : (m.setPresent k b).oneofs = m.oneofs := rfl
@[simp] theorem unknownFields_setPresent : (m.setPresent k b).unknownFields = m.unknownFields := rfl

@[simp] theorem cls_setOneof : (m.setOneof o n).cls = m.cls := rfl
@[simp] theorem values_setOneof : (m.setOneof o n).values = m.values := rfl
@[simp] theorem present_setOneof : (m.setOneof o n).present = m.present := rfl
@[simp] theorem oneofs_setOneof : (m.setOneof o n).oneofs = Function.update m.oneofs o n := rfl
@[simp] theorem unknownFields_setOneof : (m.setOneof o n).unknownFields = m.unknownFields := rfl

end

theorem ext {m m' : Message} (hc : m.cls = m'.cls) (hv : m.values = m'.values) (hp : m.present = m'.present)
    (ho : m.oneofs = m'.oneofs) (hu : m.unknownFields = m'.unknownFields) : m = m' := by
  have ⟨_, _, _, _, _⟩ := m
  have ⟨_, _, _, _, _⟩ := m'
  cases hc; cases hv; cases hp; cases ho; cases hu
  rfl

-- The items of a `RepeatedValues`, which is created when it is needed.
def repeatedItems (m : Message) (k : Key) : List (Value Message) :=
  match m.values k with
  | some (.repeated vs) => vs
  | _ => []

def mapItems (m : Message) (k : Key) : FinMap Scalar (Value Message) :=
  match m.values k with
  | some (.map d) => d
  | _ => ∅

def extend (m : Message) (k : Key) (vs : List (Value Message)) : Message :=
  m.setValue k (some (.repeated (m.repeatedItems k ++ vs)))

def setEntry (m : Message) (k : Key) (key : Scalar) (v : Value Message) : Message :=
  m.setValue k (some (.map ((m.mapItems k).set key v)))

def clearState (m : Message) (f : Field) : Message :=
  if f.map then
    m.setValue f.key ((m.values f.key).map fun _ => .map ∅)
  else if f.repeated then
    m.setValue f.key ((m.values f.key).map fun _ => .repeated [])
  else
    let m := (m.setValue f.key none).setPresent f.key false
    match f.oneof with
    | none => m
    | some o => if m.oneofs o = some f.number then m.setOneof o none else m

def clearSelected (S : Schema) (m : Message) (f : Field) : Message :=
  match f.oneof with
  | none => m
  | some o =>
    match (m.oneofs o).bind (S m.cls).field? with
    | none => m
    | some previous => if previous.number = f.number then m else m.clearState previous

-- `_select` of a field and `_mark_present` of an extension, without the notification.
def select (S : Schema) (m : Message) (k : Key) (f : Field) : Message :=
  let m :=
    match f.oneof with
    | none => m
    | some o => (m.clearSelected S f).setOneof o (some f.number)
  if f.hasPresence then m.setPresent k true else m

def storeValue (S : Schema) (m : Message) (k : Key) (f : Field) (v : Value Message) : Message :=
  (m.setValue k (some (.singular v))).select S k f

def equalsDefault (f : Field) : Option (Slot Message) → Bool
  | some (.singular (.scalar s)) => s.eq f.default
  | _ => false

def fieldIsDefault (m : Message) (f : Field) (value : Option (Slot Message)) : Bool :=
  if f.map || f.repeated then
    !value.any Slot.isTruthy
  else if f.hasPresence then
    !m.present f.key
  else
    value.isNone || equalsDefault f value

def fieldHasValue (m : Message) (f : Field) (value : Option (Slot Message)) : Bool :=
  if f.map || f.repeated then
    value.any Slot.isTruthy
  else if f.hasPresence then
    m.present f.key
  else
    !m.fieldIsDefault f value

end Message

-- The default of a codec. That of a message codec is a new message.
def Codec.defaultValue : Codec → Value Message
  | .message c => .message (.empty c)
  | c => .scalar c.default

def Value.closedEnumUnknown : Value Message → Codec → Bool
  | .scalar s, c => c.closedEnumUnknown s
  | .message _, _ => false

def Value.acceptedBy : Value Message → Codec → Bool
  | .message m, .message c => m.cls = c
  | .scalar s, c => c.accepts s
  | .message _, _ => false

end Protos
