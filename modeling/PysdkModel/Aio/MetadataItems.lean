import PysdkModel.Aio.Metadata
import PysdkModel.Lib.Sequence

-- The item operations of a `Metadata`, with whatever a caller may pass to them: base/metadata.py.

namespace Aio

inductive Argument
  | str (t : Text)
  | tuple (items : List Argument)
  | list (items : List Argument)
  -- An iterable of another type. It yields the items, and then it raises if `raises` is set.
  | iterable (items : List Argument) (raises : Bool)
  -- The collection to which it is passed.
  | this
  -- An object that is not iterable and has no method `lower`.
  | object

abbrev Contents := List (Text × Argument)

inductive ItemsError
  -- A `TypeError` that is raised by the class.
  | wrongType (message : String)
  -- The `TypeError`, `AttributeError`, `ValueError` or `IndexError` of an operation on a value.
  | notIterable
  | notSubscriptable
  | noLower
  | unpacking
  | index
  | slice
  -- What the iterable raises.
  | iteration

-- What a loop goes through: the items, and the exception with which it ends if there is one.
structure Iteration where
  items : List Argument
  error : Option ItemsError

namespace Argument

def iterate (md : Contents) : Argument → Iteration
  | str t => ⟨t.map fun c => .str [c], none⟩
  | tuple items => ⟨items, none⟩
  | list items => ⟨items, none⟩
  | iterable items raises => ⟨items, if raises then some .iteration else none⟩
  | this => ⟨md.map fun e => .tuple [.str e.1, e.2], none⟩
  | object => ⟨[], some .notIterable⟩

-- `isinstance(value, tuple) and len(value) == 2 and isinstance(value[0], str) and isinstance(value[1], str)`
def strPair? : Argument → Option (Text × Text)
  | tuple [str k, str v] => some (k, v)
  | _ => none

-- `value[i]`
def subscript (md : Contents) (i : Nat) : Argument → Except ItemsError Argument
  | iterable _ _ => .error .notSubscriptable
  | object => .error .notSubscriptable
  | value =>
    match (value.iterate md).items[i]? with
    | some item => .ok item
    | none => .error .index

-- `k, v = value`
def unpack (value : Argument) : Except ItemsError (Argument × Argument) :=
  match value.iterate [] with
  | ⟨[k, v], none⟩ => .ok (k, v)
  | ⟨_ :: _ :: _ :: _, _⟩ => .error .unpacking
  | ⟨_, some e⟩ => .error e
  | ⟨_, none⟩ => .error .unpacking

end Argument

inductive ItemsIndex
  | int (i : Int)
  | slice (s : Slice)
  | str (key : Text)
  | other

structure ItemsOutcome where
  contents : Contents
  error : Option ItemsError

namespace Contents

-- An operation that changes the contents in its last step.
def update (md : Contents) : Except ItemsError Contents → ItemsOutcome
  | .ok md' => ⟨md', none⟩
  | .error e => ⟨md, some e⟩

variable (C : CaseMap)

-- `value[0].lower()`
def lowerOf : Argument → Except ItemsError Text
  | .str t => .ok (C.lower t)
  | _ => .error .noLower

-- `Metadata(initial)` skips the entries that do not consist of strings.
def construct (initial : Option Argument) : Except ItemsError Contents :=
  match initial with
  | none => .ok []
  | some initial => do
    let entries ← (initial.iterate []).items.mapM Argument.unpack
    match (initial.iterate []).error with
    | some e => .error e
    | none => return entries.filterMap fun
      | (.str k, .str v) => some (C.lower k, .str v)
      | _ => none

def insert (md : Contents) (i : Int) (value : Argument) : Except ItemsError Contents := do
  let key ← lowerOf C (← value.subscript md 0)
  return Sequence.insertAt md i (key, ← value.subscript md 1)

def append (md : Contents) (value : Argument) : Except ItemsError Contents :=
  insert C md md.length value

def add (md : Contents) (key : Text) (value : Argument) : Contents :=
  md ++ [(C.lower key, value)]

-- `metadata[key]`
def values (md : Contents) (key : Text) : List Argument :=
  (md.filter fun e => e.1 = C.lower key).map Prod.snd

-- `metadata[i] = value`
def setIndex (md : Contents) (i : Int) (value : Argument) : Except ItemsError Contents :=
  match value.strPair? with
  | none        => .error (.wrongType "If index is int, value must be Tuple[str,str]")
  | some (k, v) =>
    match Sequence.setItem? md i (C.lower k, .str v) with
    | none => .error .index
    | some md' => .ok md'

def entry (value : Argument) : Except ItemsError (Text × Argument) :=
  match value.strPair? with
  | none        => .error (.wrongType "If index is slice, value must be Iterable[Tuple[str,str]]")
  | some (k, v) => .ok (C.lower k, .str v)

-- `metadata[i:j:k] = value`
def setSlice (md : Contents) (s : Slice) (value : Argument) : Except ItemsError Contents := do
  let entries ← (value.iterate md).items.mapM (entry C)
  match (value.iterate md).error with
  | some e => .error e
  | none =>
    match s.assign? md entries with
    | none => .error .slice
    | some md' => .ok md'

-- `del metadata[key]`
def deleteKey (md : Contents) (key : Text) : Contents :=
  md.filter fun e => e.1 ≠ C.lower key

def appendEach (key : Text) (error : Option ItemsError) : Contents → List Argument → ItemsOutcome
  | md, [] => ⟨md, error⟩
  | md, .str s :: values =>
    match append C md (.tuple [.str key, .str s]) with
    | .ok md' => appendEach key error md' values
    | .error e => ⟨md, some e⟩
  | md, _ :: _            => ⟨md, some (.wrongType "If index is str, value must be str or Iterable[str]")⟩

-- What is assigned to a key: a string is a single value.
def assigned (md : Contents) : Argument → Iteration
  | .str t => ⟨[.str t], none⟩
  | value => value.iterate md

-- `metadata[key] = value` deletes the entries of the key before it looks at the value.
def setKey (md : Contents) (key : Text) (value : Argument) : ItemsOutcome :=
  let key := C.lower key
  let md := deleteKey C md key
  let it := assigned md value
  appendEach C key it.error md it.items

def indexError : ItemsError :=
  .wrongType "Index must be int, str or slice"

def setItem (md : Contents) (index : ItemsIndex) (value : Argument) : ItemsOutcome :=
  match index with
  | .int i => update md (setIndex C md i value)
  | .slice s => update md (setSlice C md s value)
  | .str key => setKey C md key value
  | .other => ⟨md, some indexError⟩

def deleteItem (md : Contents) (index : ItemsIndex) : ItemsOutcome :=
  match index with
  | .int i =>
    match Sequence.deleteItem? md i with
    | none => ⟨md, some .index⟩
    | some md' => ⟨md', none⟩
  | .slice s =>
    match s.delete? md with
    | none => ⟨md, some .slice⟩
    | some md' => ⟨md', none⟩
  | .str key => ⟨deleteKey C md key, none⟩
  | .other => ⟨md, some indexError⟩

end Contents

inductive ItemsOp
  | add (key : Text) (value : Argument)
  | insert (i : Int) (value : Argument)
  | append (value : Argument)
  | setItem (index : ItemsIndex) (value : Argument)
  | deleteItem (index : ItemsIndex)

namespace ItemsOp

def run (C : CaseMap) (md : Contents) : ItemsOp → ItemsOutcome
  | add key value => ⟨md.add C key value, none⟩
  | insert i value => md.update (md.insert C i value)
  | append value => md.update (md.append C value)
  | setItem index value => md.setItem C index value
  | deleteItem index => md.deleteItem C index

end ItemsOp

end Aio
