import PysdkModel.FieldMask.Mask

-- The operations of `nebius/base/fieldmask.py` on finite mask trees. Where the source takes
-- `Mask | None`, passing `None` is the identity of the merge and the subtraction and gives `None`
-- for the intersections. These cases are written out at the call sites, so that every function
-- below takes masks only.

namespace Mask

variable {κ : Type} [DecidableEq κ]

def copy (self : Mask κ) : Mask κ :=
  mk
    (match _h : self.any with
      | some a => some a.copy
      | none => none)
    (self.fieldParts.alterEach ∅ fun _ v _ _ => some v.copy)
termination_by self.size
decreasing_by
  · exact size_any_lt ‹_›
  · exact size_fieldParts_lt ‹_›

-- Models `__iadd__`. The left operand is updated in place in the source, so this is its new value.
def iadd (self other : Mask κ) : Mask κ :=
  if other.isEmpty then self
  else
    mk
      (match self.any, _h : other.any with
        | some a, some b => some (a.iadd b)
        | some a, none => some a
        | none, some b => some b.copy
        | none, none => none)
      (other.fieldParts.alterEach self.fieldParts fun _ v _ p =>
        match p with
        | some p => some (p.iadd v)
        | none => some v.copy)
termination_by other.size
decreasing_by
  · exact size_any_lt ‹_›
  · exact size_fieldParts_lt ‹_›

instance : Add (Mask κ) where
  add self other := self.copy.iadd other

-- Models `__eq__`. The keys' order does not matter.
def eq (self value : Mask κ) : Bool :=
  (match _h : self.any, _h' : value.any with
    | some a, some b => a.eq b
    | none, none => true
    | _, _ => false) &&
  self.fieldParts.length == value.fieldParts.length &&
  self.fieldParts.entries.attach.all fun ⟨(k, v), _⟩ =>
    match _h : value.fieldParts.get? k with
    | some w => w.eq v
    | none => false
termination_by self.size + value.size
decreasing_by
  · have := size_any_lt ‹self.any = _›; have := size_any_lt ‹value.any = _›; omega
  · have := size_fieldParts_lt ‹(k, v) ∈ _›
    have := size_fieldParts_lt <| Dict.get?_eq_some_iff.mp ‹_›
    omega

instance : BEq (Mask κ) where
  beq := eq

-- Adds the result of a partial intersection to the entry of a key.
def addPart (inner : Mask κ) : Option (Mask κ) → Option (Mask κ)
  | some p => some (p.iadd inner)
  | none => some inner

def intersectResetMask (self other : Mask κ) : Mask κ :=
  let any :=
    match _h : self.any, _h' : other.any with
    | some a, some b => some (a.intersectResetMask b)
    | _, _ => none
  let parts :=
    match _h : self.any with
    | some a => other.fieldParts.alterEach ∅ fun _ v _ _ => some (a.intersectResetMask v)
    | none => ∅
  let parts :=
    match _h : other.any with
    | some b => self.fieldParts.alterEach parts fun _ v _ => addPart (b.intersectResetMask v)
    | none => parts
  let parts :=
    self.fieldParts.alterEach parts fun k v _ =>
      match _h : other.fieldParts.get? k with
      | some w => addPart (v.intersectResetMask w)
      | none => id
  mk any parts
termination_by self.size + other.size
decreasing_by
  · have := size_any_lt ‹self.any = _›; have := size_any_lt ‹other.any = _›; omega
  · have := size_any_lt ‹self.any = _›; have := size_fieldParts_lt ‹_›; omega
  · have := size_any_lt ‹other.any = _›; have := size_fieldParts_lt ‹_›; omega
  · have := size_fieldParts_lt ‹(k, v) ∈ _›
    have := size_fieldParts_lt <| Dict.get?_eq_some_iff.mp ‹_›
    omega

instance : AndOp (Mask κ) where
  and := intersectResetMask

def intersectDumb (self other : Mask κ) : Mask κ :=
  mk
    (match _h : self.any, other.any with
      | some a, some b => some (a.intersectDumb b)
      | _, _ => none)
    (self.fieldParts.alterEach ∅ fun k v _ p =>
      match other.fieldParts.get? k with
      | some w => some (v.intersectDumb w)
      | none => p)
termination_by self.size
decreasing_by
  · exact size_any_lt ‹_›
  · exact size_fieldParts_lt ‹_›

instance : Mul (Mask κ) where
  mul self other := self.copy.intersectDumb other

-- Models `subtract_dumb`, which updates the left operand in place.
def subtractDumb (self other : Mask κ) : Mask κ :=
  mk
    (match self.any, _h : other.any with
      | some a, some b =>
        let a := a.subtractDumb b
        if a.isEmpty then none else some a
      | a, _ => a)
    (self.fieldParts.alterEach self.fieldParts fun k v _ p =>
      match _h : other.fieldParts.get? k with
      | some w =>
        let v := v.subtractDumb w
        if v.isEmpty then none else some v
      | none => p)
termination_by other.size
decreasing_by
  · exact size_any_lt ‹_›
  · exact size_fieldParts_lt <| Dict.get?_eq_some_iff.mp ‹_›

instance : Div (Mask κ) where
  div self other := self.copy.subtractDumb other

-- Models `subtract_reset_mask`, which updates the left operand in place.
def subtractResetMask (self other : Mask κ) : Mask κ :=
  let any :=
    match self.any with
    | none => none
    | some a =>
      let a :=
        match _h : other.any with
        | some b => a.subtractResetMask b
        | none => a
      if a.isEmpty then none else some a
  let parts :=
    self.fieldParts.alterEach self.fieldParts fun k v _ p =>
      if other.any.isNone && !other.fieldParts.contains k then p
      else
        let v :=
          match _h : other.any with
          | some b => v.subtractResetMask b
          | none => v
        let v :=
          match _h : other.fieldParts.get? k with
          | some w => v.subtractResetMask w
          | none => v
        if v.isEmpty then none else some v
  mk any parts
termination_by other.size
decreasing_by
  · exact size_any_lt ‹_›
  · exact size_any_lt ‹_›
  · exact size_fieldParts_lt <| Dict.get?_eq_some_iff.mp ‹_›

instance : Sub (Mask κ) where
  sub self other := self.copy.subtractResetMask other

-- Models `FieldPath._matches_reset_mask`: whether there is a match and whether it is final.
def matchesResetMaskFinal : List κ → Mask κ → Bool × Bool
  | [], mask => (true, mask.isEmpty)
  | key :: rest, mask =>
    let (hasMatch, isFinal) :=
      match mask.any with
      | some a => matchesResetMaskFinal rest a
      | none => (false, false)
    match mask.fieldParts.get? key with
    | some p =>
      let (kMatch, kFinal) := matchesResetMaskFinal rest p
      (hasMatch || kMatch, if kMatch then isFinal || kFinal else isFinal)
    | none => (hasMatch, isFinal)

def matchesResetMask (path : List κ) (mask : Mask κ) : Bool :=
  (matchesResetMaskFinal path mask).1

-- Models `FieldPath.matches_reset_mask_final`.
def endsResetMask (path : List κ) (mask : Mask κ) : Bool :=
  let (ret, fin) := matchesResetMaskFinal path mask
  ret && fin

-- Models `FieldPath._matches_select_mask` and thereby `matches_select_mask_inner`: whether there is a
-- match and whether it lies below a leaf of the mask.
def matchesSelectMaskInner : List κ → Mask κ → Bool × Bool
  | [], _ => (true, false)
  | key :: rest, mask =>
    if mask.isEmpty then
      (true, true)
    else
      let (hasMatch, isInner) :=
        match mask.any with
        | some a => matchesSelectMaskInner rest a
        | none => (false, false)
      match mask.fieldParts.get? key with
      | some p =>
        let (kMatch, kFinal) := matchesSelectMaskInner rest p
        (hasMatch || kMatch, if kMatch then isInner || kFinal else isInner)
      | none => (hasMatch, isInner)

def matchesSelectMask (path : List κ) (mask : Mask κ) : Bool :=
  (matchesSelectMaskInner path mask).1

-- Models `sub_mask` of a key.
def subMaskKey (self : Mask κ) (key : κ) : Option (Mask κ) :=
  match self.fieldParts.get? key with
  | some p =>
    match self.any with
    | some a => some (p.copy.iadd a)
    | none => some p
  | none => self.any

-- Models `sub_mask` of a path.
def subMask (self : Mask κ) : List κ → Option (Mask κ)
  | [] => some self
  | s :: path => (self.subMaskKey s).bind (·.subMask path)

def toMask : List κ → Mask κ
  | [] => ∅
  | v :: path => mk none <| (∅ : Dict κ (Mask κ)).set v (toMask path)

-- Models `FieldPath.__add__` for a mask. The last key of the path leads to the mask, so a path without
-- keys does not.
def attach : List κ → Mask κ → Mask κ
  | [], _ => ∅
  | v :: path, other =>
    mk none <| (∅ : Dict κ (Mask κ)).set v <| if path.isEmpty then other else attach path other

end Mask
