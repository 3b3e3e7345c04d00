import PysdkModel.Lib.Dict
import PysdkModel.Lib.Sequence
import PysdkModel.FieldMask.FieldKey

-- The assignments to a message and to its containers, one effect after the other: `_set_field` of
-- base/protos/direct.py, and the methods of `RepeatedValues`, `ExtensionValues` and `MapValues` that store what a
-- caller passes to them.

namespace Protos

open MonadExcept (ofExcept)

-- What a loop over a Python object goes through, and what it raises after that.
structure Iteration (α ε : Type) where
  items : List α
  error : Option ε

-- `[f(item) for item in iteration]`
def Iteration.collect {α β ε : Type} (it : Iteration α ε) (f : α → Except ε β) : Except ε (List β) := do
  let bs ← it.items.mapM f
  match it.error with
  | none => return bs
  | some e => throw e

structure Python (V ε : Type) where
  isNone : V → Bool
  isText : V → Bool -- `isinstance(value, (str, bytes))`
  iterable? : V → Option (Iteration V ε)
  mapping? : V → Option (Iteration (V × V) ε) -- the `items` of a `Mapping`
  typeError : ε
  valueError : ε
  indexError : ε
  keyError : ε
  attributeError : ε

-- `ValueCodec`, as far as assignments use it. `copy` raises for an object of a subclass.
structure ValueCodec (V T ε : Type) where
  normalize : V → Except ε T
  copy : T → Except ε T
  bindMutation : Bool

-- A value that is stored in a message. If it is a message, it reports its changes as long as it is bound.
structure Owned (T : Type) where
  value : T
  bound : Bool

variable {V K T F ε α : Type}

-- `_prepare`: only the copy is bound.
def ValueCodec.prepare (c : ValueCodec V T ε) (v : V) : Except ε (Owned T) :=
  return ⟨← c.copy (← c.normalize v), c.bindMutation⟩

def ValueCodec.detach (c : ValueCodec V T ε) (o : Owned T) : Owned T :=
  if c.bindMutation then { o with bound := false } else o

-- The items of a container, and how often it has called `_on_mutation`.
structure Container (I : Type) where
  items : I
  mutations : Nat

abbrev RepeatedValues (T : Type) := Container (List (Owned T))

abbrev MapValues (K T : Type) := Container (Dict K (Owned T))

def Container.commit {I : Type} (f : I → I) : EStateM ε (Container I) Unit := do
  modify fun c => { c with items := f c.items }
  modify fun c => { c with mutations := c.mutations + 1 }

open Container (commit)

inductive ItemIndex
  | int (i : Int)
  | slice (s : Slice)
  | other

namespace RepeatedValues

variable (P : Python V ε) (c : ValueCodec V T ε)

def detachAt (ns : List Nat) (r : RepeatedValues T) : RepeatedValues T :=
  { r with items := r.items.mapIdx fun n o => if n ∈ ns then c.detach o else o }

def iterate (v : V) : Except ε (Iteration V ε) :=
  match P.iterable? v with
  | some it => .ok it
  | none => .error P.typeError

def setItem (index : ItemIndex) (v : V) : EStateM ε (RepeatedValues T) Unit :=
  match index with
  | .slice s => do
    let it ← ofExcept (iterate P v)
    let prepared ← ofExcept (it.collect c.prepare)
    let r ← get
    match s.assign? r.items prepared with
    | none => throw P.valueError
    | some replacement =>
      modify (detachAt c (s.positions r.items.length))
      commit fun _ => replacement
  | .int i => do
    let prepared ← ofExcept (c.prepare v)
    let r ← get
    match Sequence.position? r.items.length i with
    | none => throw P.indexError
    | some n =>
      modify (detachAt c [n])
      commit fun items => items.set n prepared
  | .other => do
    discard <| ofExcept (c.prepare v)
    throw P.typeError

def deleteItem (index : ItemIndex) : EStateM ε (RepeatedValues T) Unit := do
  let r ← get
  match index with
  | .slice s =>
    match s.delete? r.items with
    | none => throw P.valueError
    | some rest =>
      modify (detachAt c (s.positions r.items.length))
      commit fun _ => rest
  | .int i =>
    match Sequence.position? r.items.length i with
    | none => throw P.indexError
    | some n =>
      modify (detachAt c [n])
      commit fun items => items.eraseIdx n
  | .other => throw P.typeError

def insert (index : ItemIndex) (v : V) : EStateM ε (RepeatedValues T) Unit := do
  let prepared ← ofExcept (c.prepare v)
  match index with
  | .int i => commit fun items => Sequence.insertAt items i prepared
  | _ => throw P.typeError

def extend (v : V) : EStateM ε (RepeatedValues T) Unit := do
  let it ← ofExcept (iterate P v)
  let prepared ← ofExcept (it.collect c.prepare)
  if prepared.isEmpty then return
  commit (· ++ prepared)

-- `replace`, with the conversion that its argument may make of each item.
def replace (convert : V → Except ε V) (it : Iteration V ε) : EStateM ε (RepeatedValues T) Unit := do
  let prepared ← ofExcept (it.collect fun v => do c.prepare (← convert v))
  modify fun r => { r with items := r.items.map c.detach }
  commit fun _ => prepared

end RepeatedValues

namespace MapValues

variable [DecidableEq K] (P : Python V ε) (key : V → Except ε K) (c : ValueCodec V T ε)

def detachAt (k : K) (m : MapValues K T) : MapValues K T :=
  { m with items := m.items.alter k (Option.map c.detach) }

def setItem (k v : V) : EStateM ε (MapValues K T) Unit := do
  let k ← ofExcept (key k)
  let prepared ← ofExcept (c.prepare v)
  modify (detachAt c k)
  commit (·.set k prepared)

def deleteItem (k : V) : EStateM ε (MapValues K T) Unit := do
  let k ← ofExcept (key k)
  let m ← get
  if m.items.contains k then
    modify (detachAt c k)
    commit (·.erase k)
  else throw P.keyError

def replace (it : Iteration (V × V) ε) : EStateM ε (MapValues K T) Unit := do
  let prepared ← ofExcept (it.collect fun e => return (← key e.1, ← c.prepare e.2))
  modify fun m => { m with items := m.items.map c.detach }
  commit fun _ => prepared.foldl (fun d e => d.set e.1 e.2) ∅

end MapValues

-- A field or an extension. An extension has presence, no oneof and no conversion, and `accessible` is what its `_check`
-- and the extension registry of the message say.
structure Member (V K T ε : Type) where
  protoName : FieldKey
  codec : ValueCodec V T ε
  mapKeyCodec : Option (V → Except ε K)
  repeated : Bool
  oneof : Option Text
  hasPresence : Bool
  fromPython : Option (V → Except ε V)
  isDefault : T → Bool -- `owned == field.default()`
  accessible : Bool

def Member.convert (d : Member V K T ε) (v : V) : Except ε V :=
  match d.fromPython with
  | some convert => convert v
  | none => .ok v

-- The members of a message by their kind. `resets` has the names in `_reset_mask`, and `notified` counts the calls of
-- `_notify`.
structure Stored (F K T : Type) where
  singular : F → Option (Owned T)
  repeated : F → Option (List (Owned T))
  maps : F → Option (Dict K (Owned T))
  present : F → Bool
  oneofs : Text → Option F
  resets : FieldKey → Bool
  resetsSuspended : Bool
  notified : Nat

namespace Stored

variable [DecidableEq F]

def notify (s : Stored F K T) : Stored F K T :=
  { s with notified := s.notified + 1 }

-- A method of the container that is stored for a field. A new one is stored if there is none.
def onContainer {I : Type} (values : Stored F K T → F → Option I) (new : I)
    (put : Stored F K T → (F → Option I) → Stored F K T) (f : F) (x : EStateM ε (Container I) α) :
    EStateM ε (Stored F K T) α := fun s =>
  let back (c : Container I) : Stored F K T :=
    { put s (Function.update (values s) f (some c.items)) with notified := c.mutations }
  match x ⟨(values s f).getD new, s.notified⟩ with
  | .ok a c => .ok a (back c)
  | .error e c => .error e (back c)

def onRepeated : F → EStateM ε (RepeatedValues T) α → EStateM ε (Stored F K T) α :=
  onContainer repeated [] fun s values => { s with repeated := values }

def onMap : F → EStateM ε (MapValues K T) α → EStateM ε (Stored F K T) α :=
  onContainer maps ∅ fun s values => { s with maps := values }

section

variable (D : F → Member V K T ε)

def detachChild (f : F) (s : Stored F K T) : Stored F K T :=
  { s with singular := Function.update s.singular f ((s.singular f).map (D f).codec.detach) }

-- `_clear_state`. The `clear` of a container reports a change only if there are items.
def clearState (f : F) (s : Stored F K T) : Stored F K T :=
  if (D f).mapKeyCodec.isSome then
    if (s.maps f).all Dict.isEmpty then s
    else { s with maps := Function.update s.maps f (some ∅) }.notify
  else if (D f).repeated then
    if (s.repeated f).all List.isEmpty then s
    else { s with repeated := Function.update s.repeated f (some []) }.notify
  else
    { s.detachChild D f with
      singular := Function.update s.singular f none
      present := Function.update s.present f false
      oneofs := fun o => if (D f).oneof = some o ∧ s.oneofs o = some f then none else s.oneofs o }

def select (f : F) (s : Stored F K T) : Stored F K T :=
  let s :=
    match (D f).oneof with
    | none => s
    | some o =>
      let s :=
        match s.oneofs o with
        | none => s
        | some previous => if previous = f then s else s.clearState D previous
      { s with oneofs := Function.update s.oneofs o (some f) }
  if (D f).hasPresence then { s with present := Function.update s.present f true } else s

def recordReset (f : F) (s : Stored F K T) : Stored F K T :=
  if s.resetsSuspended then s else { s with resets := Function.update s.resets (D f).protoName true }

def store (f : F) (owned : Owned T) (s : Stored F K T) : Stored F K T :=
  { s with singular := Function.update s.singular f (some owned) }

end

variable [DecidableEq K] (P : Python V ε) (D : F → Member V K T ε)

-- `replace` on the container of a repeated field or extension.
def replaceRepeated (f : F) (v : V) : EStateM ε (Stored F K T) Unit :=
  if P.isText v then throw P.typeError
  else do
    let it ← ofExcept (RepeatedValues.iterate P v)
    onRepeated f (RepeatedValues.replace (D f).codec (D f).convert it)

-- The items of the mapping, or with a conversion those of a new dictionary.
def converted (fromPython : Option (V → Except ε V)) (it : Iteration (V × V) ε) : Except ε (Iteration (V × V) ε) :=
  match fromPython with
  | none => .ok it
  | some convert => return ⟨← it.collect fun e => return (e.1, ← convert e.2), none⟩

def setField (f : F) (v : V) : EStateM ε (Stored F K T) Unit :=
  if P.isNone v then do
    modify (clearState D f)
    modify (recordReset D f)
    modify notify
  else match (D f).mapKeyCodec, P.mapping? v with
  | some key, some it => do
    let it ← ofExcept (converted (D f).fromPython it)
    onMap f (MapValues.replace key (D f).codec it)
    modify fun s => if (s.maps f).all Dict.isEmpty then s.recordReset D f else s
  | some _, none => throw P.typeError
  | none, _ =>
    if (D f).repeated then do
      replaceRepeated P D f v
      modify fun s => if (s.repeated f).all List.isEmpty then s.recordReset D f else s
    else do
      let owned ← ofExcept (do (D f).codec.prepare (← (D f).convert v))
      modify (detachChild D f)
      modify (select D f)
      modify (store f owned)
      modify fun s => if !(D f).hasPresence && (D f).isDefault owned.value then s.recordReset D f else s
      modify notify

def setExtension (f : F) (v : V) : EStateM ε (Stored F K T) Unit :=
  if !(D f).accessible then throw P.valueError
  else if (D f).repeated then replaceRepeated P D f v
  else do
    let owned ← ofExcept ((D f).codec.prepare v)
    modify (detachChild D f)
    modify (store f owned)
    modify fun s => { s with present := Function.update s.present f true }
    modify notify

-- What `_serialize_to_string` writes of a member: empty containers are skipped like those that are missing.
def written (s : Stored F K T) (f : F) : Option (List (Option K × T)) :=
  if (D f).mapKeyCodec.isSome then
    some (((s.maps f).getD ∅).entries.map fun e => (some e.1, e.2.value))
  else if (D f).repeated then some (((s.repeated f).getD []).map fun o => (none, o.value))
  else if (D f).hasPresence && !s.present f then none
  else (s.singular f).bind fun o =>
    if !(D f).hasPresence && (D f).isDefault o.value then none else some [(none, o.value)]

end Stored

inductive Assignment (F V : Type)
  | field (f : F) (v : V)
  | extension (f : F) (v : V)
  | setItem (f : F) (index : ItemIndex) (v : V)
  | deleteItem (f : F) (index : ItemIndex)
  | insert (f : F) (index : ItemIndex) (v : V)
  | extend (f : F) (v : V)
  | replace (f : F) (v : V)
  | setEntry (f : F) (k v : V)
  | deleteEntry (f : F) (k : V)
  | replaceEntries (f : F) (v : V)

open Stored in
-- The methods of a map need the codec of its keys.
def Assignment.run [DecidableEq F] [DecidableEq K] (P : Python V ε) (D : F → Member V K T ε) :
    Assignment F V → EStateM ε (Stored F K T) Unit
  | field f v => setField P D f v
  | extension f v => setExtension P D f v
  | setItem f index v => onRepeated f (RepeatedValues.setItem P (D f).codec index v)
  | deleteItem f index => onRepeated f (RepeatedValues.deleteItem P (D f).codec index)
  | insert f index v => onRepeated f (RepeatedValues.insert P (D f).codec index v)
  | extend f v => onRepeated f (RepeatedValues.extend P (D f).codec v)
  | replace f v => do
    let it ← ofExcept (RepeatedValues.iterate P v)
    onRepeated f (RepeatedValues.replace (D f).codec .ok it)
  | setEntry f k v =>
    match (D f).mapKeyCodec with
    | some key => onMap f (MapValues.setItem key (D f).codec k v)
    | none => throw P.typeError
  | deleteEntry f k =>
    match (D f).mapKeyCodec with
    | some key => onMap f (MapValues.deleteItem P key (D f).codec k)
    | none => throw P.typeError
  | replaceEntries f v =>
    match (D f).mapKeyCodec, P.mapping? v with
    | some key, some it => onMap f (MapValues.replace key (D f).codec it)
    | some _, none => throw P.attributeError
    | none, _ => throw P.typeError

end Protos
