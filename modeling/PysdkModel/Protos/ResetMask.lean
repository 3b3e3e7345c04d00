import PysdkModel.FieldMask.Heap
import PysdkModel.Protos.Message

namespace Protos

structure ResetItem where
  message : Message
  mask : Nat
  depth : Nat

-- The masks and the worklist, whose top comes first.
structure ResetLoop where
  heap : MaskHeap FieldKey
  pending : List ResetItem

namespace Message

def resetSkips (m : Message) (f : Field) : Bool :=
  f.immutable || (f.immutableOneof && !m.fieldHasValue f (m.values f.key))

def resetChildren (m : Message) (f : Field) : List Message :=
  if m.resetSkips f || !m.fieldHasValue f (m.values f.key) || !f.message then
    []
  else if f.map || f.repeated then
    ((m.values f.key).map Slot.elements).getD []
  else
    ((m.values f.key).bind Slot.message?).toList

end Message

namespace ResetLoop

def maxDepth : Nat := 1000

def push (l : ResetLoop) (messages : List Message) (mask depth : Nat) : List ResetItem :=
  messages.reverse.map (⟨·, mask, depth⟩) ++ l.pending

-- The body of the loop over the fields of a message. The branches of the source for map fields and for
-- repeated fields are the same.
def visitField (item : ResetItem) (l : ResetLoop) (f : Field) : ResetLoop :=
  let m := item.message
  let key := Step.key f.protoName
  if m.resetSkips f then
    l
  else
    let (heap, fieldMask) := l.heap.childOrNew item.mask key
    if !m.fieldHasValue f (m.values f.key) then
      { l with heap := heap.setChild item.mask key fieldMask }
    else if f.map || f.repeated then
      if f.message then
        let (heap, innerMask) := heap.childOrNew fieldMask .any
        { heap := (heap.setChild fieldMask .any innerMask).setChild item.mask key fieldMask
          pending := l.push (m.resetChildren f) innerMask (item.depth + 1) }
      else
        { l with heap }
    else if f.message then
      { heap := heap.setChild item.mask key fieldMask
        pending := l.push (m.resetChildren f) fieldMask (item.depth + 1) }
    else if Message.equalsDefault f (m.values f.key) then
      { l with heap := heap.setChild item.mask key fieldMask }
    else
      { l with heap }

def visit (S : Schema) (item : ResetItem) (l : ResetLoop) : ResetLoop :=
  (S item.message.cls).fields.foldl (visitField item) l

-- The number of messages below a message, up to a depth.
def weight (S : Schema) : Nat → Message → Nat
  | 0, _ => 1
  | n + 1, m => 1 + ((S m.cls).fields.map fun f => ((m.resetChildren f).map (weight S n)).sum).sum

def measure (S : Schema) (l : ResetLoop) : Nat :=
  (l.pending.map fun i => weight S (maxDepth - i.depth) i.message).sum

section

variable {item : ResetItem} {l : ResetLoop} {f : Field}

theorem visitField_cases (item : ResetItem) (l : ResetLoop) (f : Field) :
    let m := item.message
    let new := l.heap.childOrNew item.mask (.key f.protoName)
    (m.resetSkips f ∧ m.resetChildren f = [] ∧ visitField item l f = l) ∨
    (¬m.resetSkips f ∧ m.resetChildren f = [] ∧
      (¬m.fieldHasValue f (m.values f.key) ∨
        (¬(f.map || f.repeated) ∧ ¬f.message ∧ Message.equalsDefault f (m.values f.key))) ∧
      visitField item l f = { l with heap := new.1.setChild item.mask (.key f.protoName) new.2 }) ∨
    (¬m.resetSkips f ∧ m.resetChildren f = [] ∧ m.fieldHasValue f (m.values f.key) ∧ ¬f.message ∧
      ((f.map || f.repeated) ∨ ¬Message.equalsDefault f (m.values f.key)) ∧
      visitField item l f = { l with heap := new.1 }) ∨
    (¬m.resetSkips f ∧ m.fieldHasValue f (m.values f.key) ∧ f.message ∧ (f.map || f.repeated) ∧
      let inner := new.1.childOrNew new.2 .any
      visitField item l f = {
        heap := (inner.1.setChild new.2 .any inner.2).setChild item.mask (.key f.protoName) new.2
        pending := l.push (m.resetChildren f) inner.2 (item.depth + 1)
      }) ∨
    (¬m.resetSkips f ∧ m.fieldHasValue f (m.values f.key) ∧ f.message ∧ ¬(f.map || f.repeated) ∧
      visitField item l f = {
        heap := new.1.setChild item.mask (.key f.protoName) new.2
        pending := l.push (m.resetChildren f) new.2 (item.depth + 1)
      }) := by
  by_cases hs : item.message.resetSkips f
  case pos => simp [visitField, Message.resetChildren, hs]
  by_cases hv : item.message.fieldHasValue f (item.message.values f.key)
  case neg => simp [visitField, Message.resetChildren, hs, hv]
  case pos =>
    by_cases hm : f.message
    · by_cases hc : f.map || f.repeated
      all_goals
        simp only [Bool.or_eq_true] at hc
        simp [visitField, hs, hv, hm, hc]
    · by_cases hc : f.map || f.repeated
      · simp only [Bool.or_eq_true] at hc
        simp [visitField, Message.resetChildren, hs, hv, hm, hc]
      · simp only [Bool.or_eq_true] at hc
        by_cases hd : Message.equalsDefault f (item.message.values f.key) <;>
          simp [visitField, Message.resetChildren, hs, hv, hm, hc, hd]

theorem measure_visitField {S : Schema} :
    (visitField item l f).measure S =
      ((item.message.resetChildren f).map (weight S (maxDepth - (item.depth + 1)))).sum + l.measure S := by
  have hp messages mask : ((l.push messages mask (item.depth + 1)).map fun i =>
        weight S (maxDepth - i.depth) i.message).sum =
      (messages.map (weight S (maxDepth - (item.depth + 1)))).sum + l.measure S := by
    simp only [push, List.map_append, List.sum_append, List.map_map, List.map_reverse, List.sum_reverse]
    rfl
  rcases visitField_cases item l f with
    ⟨_, hc, h⟩ | ⟨_, hc, _, h⟩ | ⟨_, hc, _, _, _, h⟩ | ⟨_, _, _, _, h⟩ | ⟨_, _, _, _, h⟩
  case inl => simp [h, hc]
  case inr.inl => simp [h, hc, measure]
  case inr.inr.inl => simp [h, hc, measure]
  all_goals rw [h, measure, hp]

theorem measure_visit_lt {S : Schema} (hd : item.depth < maxDepth) :
    (visit S item l).measure S < ({ l with pending := item :: l.pending } : ResetLoop).measure S := by
  have hw : maxDepth - item.depth = maxDepth - (item.depth + 1) + 1 := by omega
  have hf (fs : List Field) (l : ResetLoop) : (fs.foldl (visitField item) l).measure S =
      (fs.map fun f => ((item.message.resetChildren f).map
        (weight S (maxDepth - (item.depth + 1)))).sum).sum + l.measure S := by
    induction fs generalizing l
    case nil => simp
    case cons f fs ih =>
      rw [List.foldl_cons, ih, measure_visitField, List.map_cons, List.sum_cons]
      omega
  rw [visit, hf]
  simp only [measure, List.map_cons, List.sum_cons, hw, weight]
  omega

end

inductive Error
  -- The `ValueError` with the text "reset mask recursion too deep".
  | tooDeep

def loop (S : Schema) (l : ResetLoop) : Except Error (MaskHeap FieldKey) :=
  match _hp : l.pending with
  | [] => .ok l.heap
  | item :: pending =>
    if _hd : item.depth ≥ maxDepth then
      .error .tooDeep
    else
      loop S (visit S item { l with pending })
termination_by l.measure S
decreasing_by
  have : (visit S item { l with pending }).measure S < _ := measure_visit_lt (Nat.lt_of_not_le _hd)
  simpa only [measure, _hp] using this

end ResetLoop

namespace Message

def root : Nat := 0

-- The masks that `get_full_update_reset_mask` creates. Its result is the first one.
def getFullUpdateResetMask (S : Schema) (m : Message) : Except ResetLoop.Error (MaskHeap FieldKey) :=
  ResetLoop.loop S ⟨[∅], [⟨m, root, 0⟩]⟩

end Message
end Protos
