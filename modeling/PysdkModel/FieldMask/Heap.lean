import PysdkModel.FieldMask.Mask
import PysdkModel.Lib.Sharing

-- A mask object as the interpreter stores it. Its branches are references, that is indices of the
-- heap below, so a branch may be shared by several objects and may lead back to the object itself.
structure MaskObject (κ : Type) where
  any : Option Nat
  fieldParts : Dict κ Nat

abbrev MaskHeap (κ : Type) := List (MaskObject κ)

namespace MaskObject

variable {κ : Type}

def empty : MaskObject κ where
  any := none
  fieldParts := ∅

instance : EmptyCollection (MaskObject κ) where
  emptyCollection := empty

variable [DecidableEq κ]

def child? (o : MaskObject κ) : Step κ → Option Nat
  | .any => o.any
  | .key k => o.fieldParts.get? k

def setChild (o : MaskObject κ) (s : Step κ) (c : Nat) : MaskObject κ :=
  match s with
  | .any => { o with any := c }
  | .key k => { o with fieldParts := o.fieldParts.set k c }

theorem child?_empty {s : Step κ} : (∅ : MaskObject κ).child? s = none := by
  cases s <;> rfl

theorem child?_setChild {o : MaskObject κ} {s t : Step κ} {c : Nat} :
    (o.setChild s c).child? t = if t = s then some c else o.child? t := by
  cases s <;> cases t <;> simp [setChild, child?]

end MaskObject

namespace MaskHeap

variable {κ : Type}

-- The heap after `Mask()`. The new object's reference is the old heap's length.
def alloc (h : MaskHeap κ) : MaskHeap κ :=
  h ++ [∅]

theorem length_alloc {h : MaskHeap κ} : h.alloc.length = h.length + 1 := by
  simp [alloc]

variable [DecidableEq κ]

def child? (h : MaskHeap κ) : Edges (Step κ) :=
  fun r s => h[r]?.bind (·.child? s)

def setChild (h : MaskHeap κ) (r : Nat) (s : Step κ) (c : Nat) : MaskHeap κ :=
  h.modify r (·.setChild s c)

-- The branch of `r`, or a new mask that is not attached to it yet.
def childOrNew (h : MaskHeap κ) (r : Nat) (s : Step κ) : MaskHeap κ × Nat :=
  match h.child? r s with
  | some c => (h, c)
  | none => (h.alloc, h.length)

-- The tree that `copy` builds for the object `r`. Copying a cyclic graph does not return, so the
-- recursion depth is bounded.
def copy (h : MaskHeap κ) : Nat → Nat → Option (Mask κ)
  | 0, _ => none
  | n + 1, r => do
    let o ← h[r]?
    let any ← o.any.elim (some none) fun a => (copy h n a).map some
    let fieldParts ← o.fieldParts.mapM? (copy h n)
    return .mk any fieldParts

variable {h : MaskHeap κ}

theorem length_setChild {r c : Nat} {s : Step κ} : (h.setChild r s c).length = h.length := by
  simp [setChild]

theorem child?_alloc : h.alloc.child? = h.child? := by
  funext r s
  simp only [child?, alloc, List.getElem?_append]
  split
  case isTrue => rfl
  case isFalse hr =>
    rw [List.getElem?_eq_none (by omega : h.length ≤ r)]
    cases r - h.length <;> simp [MaskObject.child?_empty]

theorem child?_setChild {r v c : Nat} {s t : Step κ} (hr : r < h.length) :
    (h.setChild r s c).child? v t = if v = r ∧ t = s then some c else h.child? v t := by
  simp only [child?, setChild, List.getElem?_modify]
  by_cases hv : r = v
  · subst hv; simp [hr, MaskObject.child?_setChild]
  · simp [hv, Ne.symm hv]

theorem child?_eq_none_of_ge {r : Nat} {s : Step κ} (hr : h.length ≤ r) : h.child? r s = none := by
  simp [child?, hr]

end MaskHeap
