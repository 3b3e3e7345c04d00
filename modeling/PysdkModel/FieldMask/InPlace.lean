import PysdkModel.FieldMask.Heap

-- The operator `/` on mask objects, which copies its left operand and then subtracts from the copy in place. The
-- recursion depth is bounded, so that the functions are also defined on cyclic objects.

namespace MaskObject

variable {κ : Type} [DecidableEq κ]

-- The branches in the order in which `copy` visits them.
def steps (o : MaskObject κ) : List (Step κ) :=
  .any :: o.fieldParts.keys.map .key

def removeChild (o : MaskObject κ) : Step κ → MaskObject κ
  | .any => { o with any := none }
  | .key k => { o with fieldParts := o.fieldParts.erase k }

omit [DecidableEq κ] in
def isEmpty (o : MaskObject κ) : Bool :=
  o.any.isNone && o.fieldParts.isEmpty

end MaskObject

namespace MaskHeap

variable {κ : Type} [DecidableEq κ]

def removeChild (h : MaskHeap κ) (r : Nat) (s : Step κ) : MaskHeap κ :=
  h.modify r (·.removeChild s)

def isEmpty (h : MaskHeap κ) (r : Nat) : Bool :=
  h[r]?.any MaskObject.isEmpty

section

variable (copy : Nat → MaskHeap κ → Option (MaskHeap κ × Nat))

def copyBranch (r ret : Nat) (h : MaskHeap κ) (s : Step κ) : Option (MaskHeap κ) :=
  match h.child? r s with
  | none => some h
  | some c => (copy c h).map fun (h, c) => h.setChild ret s c

end

-- `Mask.copy`
def copyMask : Nat → Nat → MaskHeap κ → Option (MaskHeap κ × Nat)
  | 0, _, _ => none
  | n + 1, r, h => do
    let o ← h[r]?
    let ret := h.length
    let h ← o.steps.foldlM (copyBranch (copyMask n) r ret) h.alloc
    return (h, ret)

section

variable (subtract : Nat → Nat → MaskHeap κ → Option (MaskHeap κ))

-- Subtracts one branch of `other` from that of `self`, which is removed if it has become empty.
def subtractBranch (self other : Nat) (h : MaskHeap κ) (s : Step κ) : Option (MaskHeap κ) :=
  match h.child? self s, h.child? other s with
  | some a, some b => (subtract a b h).map fun h => if h.isEmpty a then h.removeChild self s else h
  | _, _ => some h

end

def subtractDumb : Nat → Nat → Nat → MaskHeap κ → Option (MaskHeap κ)
  | 0, _, _, _ => none
  | n + 1, self, other, h => do
    let h ← subtractBranch (subtractDumb n) self other h .any
    let o ← h[self]?
    (o.fieldParts.keys.map .key).foldlM (subtractBranch (subtractDumb n) self other) h

-- `Mask.__truediv__`
def truediv (n self other : Nat) (h : MaskHeap κ) : Option (MaskHeap κ × Nat) := do
  let (h, cp) ← copyMask n self h
  let h ← subtractDumb n cp other h
  return (h, cp)

end MaskHeap
