import PysdkModel.Lib.Dict
import PysdkModel.Lib.Text

-- The metadata of a request: base/metadata.py, and what aio/idempotency.py and aio/authorization/token.py do
-- with it.

namespace Aio

def isLowerAscii (c : CodePoint) : Bool :=
  c.val < 0x80 && !(0x41 ≤ c.val && c.val ≤ 0x5A)

-- `str.lower`. All that is used of it is that it keeps what it returns, and the names of the headers.
structure CaseMap where
  lower : Text → Text
  idem : ∀ t, lower (lower t) = lower t
  simple : ∀ t : Text, t.all isLowerAscii → lower t = t

namespace CaseMap

def lowerAscii (c : CodePoint) : CodePoint :=
  if 0x41 ≤ c.val ∧ c.val ≤ 0x5A then .ofNat (c.val + 0x20) else c

theorem lowerAscii_eq {c : CodePoint} (h : ¬(0x41 ≤ c.val ∧ c.val ≤ 0x5A)) : lowerAscii c = c :=
  if_neg h

theorem lowerAscii_idem (c : CodePoint) : lowerAscii (lowerAscii c) = lowerAscii c := by
  refine lowerAscii_eq ?_
  unfold lowerAscii
  split
  case isTrue h =>
    rw [CodePoint.val_ofNat (by omega)]
    omega
  case isFalse h => exact h

def ascii : CaseMap where
  lower := List.map lowerAscii
  idem := fun t => by
    rw [List.map_map]
    exact List.map_congr_left fun c _ => lowerAscii_idem c
  simple := fun t h => by
    nth_rewrite 2 [← List.map_id t]
    refine List.map_congr_left fun c hc => lowerAscii_eq ?_
    have hl := List.all_eq_true.mp h c hc
    simp only [isLowerAscii, Bool.and_eq_true, Bool.not_eq_true', Bool.and_eq_false_iff, decide_eq_true_eq,
      decide_eq_false_iff_not] at hl
    omega

end CaseMap

-- An element of an entry that the caller supplies, which need not be a string.
inductive Item
  | str (t : Text)
  | other

-- The contents of a `Metadata`. Its keys are in lower case.
abbrev Metadata := List (Text × Text)

namespace Metadata

-- `x-idempotency-key`
def idempotencyKey : Text :=
  [0x78, 0x2D, 0x69, 0x64, 0x65, 0x6D, 0x70, 0x6F, 0x74, 0x65, 0x6E, 0x63, 0x79, 0x2D, 0x6B, 0x65, 0x79]

def authorization : Text :=
  [0x61, 0x75, 0x74, 0x68, 0x6F, 0x72, 0x69, 0x7A, 0x61, 0x74, 0x69, 0x6F, 0x6E]

-- `Bearer ` and the token
def bearer (token : Text) : Text :=
  [0x42, 0x65, 0x61, 0x72, 0x65, 0x72, 0x20] ++ token

variable (C : CaseMap)

-- `Metadata(initial)` drops the entries that do not consist of strings.
def ofItems (initial : List (Item × Item)) : Metadata :=
  initial.filterMap fun
    | (.str k, .str v) => some (C.lower k, v)
    | _ => none

-- `Metadata(metadata)`
def copy (m : Metadata) : Metadata :=
  m.map fun e => (C.lower e.1, e.2)

-- `metadata[key]`
def values (m : Metadata) (key : Text) : List Text :=
  (m.filter fun e => e.1 = C.lower key).map Prod.snd

-- `del metadata[key]`
def delete (m : Metadata) (key : Text) : Metadata :=
  m.filter fun e => e.1 ≠ C.lower key

def add (m : Metadata) (key value : Text) : Metadata :=
  m ++ [(C.lower key, value)]

-- `metadata[key] = value`
def set (m : Metadata) (key value : Text) : Metadata :=
  (m.delete C key).add C key value

-- `ensure_key_in_metadata`, where `newKey` is what `new_key` returns.
def ensureKey (m : Metadata) (newKey : Text) : Metadata :=
  if m.values C idempotencyKey = [] ∨ m.values C idempotencyKey = [[]] then
    m.set C idempotencyKey newKey
  else
    m

-- `TokenAuthenticator.authenticate` with the token that the receiver fetches.
def authenticate (m : Metadata) (token : Text) : Metadata :=
  (m.delete C authorization).add C authorization (bearer token)

def others (m : Metadata) : Metadata :=
  m.filter fun e => e.1 ≠ idempotencyKey ∧ e.1 ≠ authorization

end Metadata

-- The `Metadata` of grpc.aio: a dictionary with the list of values of each key.
abbrev GrpcMetadata := Dict Text (List Text)

namespace GrpcMetadata

def getAll (g : GrpcMetadata) (key : Text) : List Text :=
  (g.get? key).getD []

def add (g : GrpcMetadata) (key value : Text) : GrpcMetadata :=
  g.set key (g.getAll key ++ [value])

-- `GrpcMetadata(*metadata)`
def ofEntries (m : Metadata) : GrpcMetadata :=
  m.foldl (fun g e => g.add e.1 e.2) ∅

-- `metadata[key]`, which is the first value.
def first? (g : GrpcMetadata) (key : Text) : Option Text :=
  (g.getAll key).head?

-- `metadata[key] = value`, which replaces the first value.
def setFirst (g : GrpcMetadata) (key value : Text) : GrpcMetadata :=
  g.set key (value :: (g.getAll key).tail)

-- `ensure_key_in_metadata`, as `IdempotencyKeyInterceptor` calls it in each native call.
def ensureKey (g : GrpcMetadata) (newKey : Text) : GrpcMetadata :=
  if (g.first? Metadata.idempotencyKey).getD [] = [] then g.setFirst Metadata.idempotencyKey newKey else g

end GrpcMetadata

end Aio
