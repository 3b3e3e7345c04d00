import PysdkModel.FieldMask.Heap
import PysdkModel.FieldMask.Parser
import Mathlib.Data.List.Sort
import Mathlib.Algebra.Order.BigOperators.Group.List
import Mathlib.Data.List.Lex

def Step.text : Step FieldKey → Text
  | .any => [Lexer.star]
  | .key k => k.marshal

-- The branches of a mask in the order in which the encoder visits them.
def branches {κ ν : Type} (any : Option ν) (fieldParts : Dict κ ν) : List (Step κ × ν) :=
  any.toList.map (.any, ·) ++ fieldParts.entries.map fun (k, c) => (.key k, c)

theorem Step.text_ne_nil : ∀ s : Step FieldKey, s.text ≠ []
  | .any => List.cons_ne_nil _ _
  | .key k => by
    simp only [text, FieldKey.marshal]
    split
    case isTrue h =>
      rintro rfl
      cases h
    case isFalse => simp [Json.dumps]

theorem nodup_branches {κ ν : Type} {any : Option ν} {fieldParts : Dict κ ν} :
    ((branches any fieldParts).map Prod.fst).Nodup := by
  have hk := fieldParts.nodup.map (f := Step.key) fun _ _ => Step.key.inj
  cases any
  case none => simpa [branches, Function.comp_def] using hk
  case some =>
    simp only [branches, Option.toList_some, List.map_cons, List.map_nil, List.singleton_append,
      List.map_map, List.nodup_cons]
    exact ⟨by simp, by simpa [Function.comp_def] using hk⟩

def MaskObject.children {κ : Type} (o : MaskObject κ) : List (Step κ × Nat) :=
  branches o.any o.fieldParts

def Mask.children {κ : Type} (m : Mask κ) : List (Step κ × Mask κ) :=
  branches m.any m.fieldParts

theorem MaskObject.mem_children_iff {κ : Type} [DecidableEq κ] {o : MaskObject κ} {s : Step κ} {c : Nat} :
    (s, c) ∈ o.children ↔ o.child? s = some c := by
  cases s <;> simp [children, branches, child?, Dict.get?_eq_some_iff]

theorem Mask.mem_children_iff {κ : Type} [DecidableEq κ] {m c : Mask κ} {s : Step κ} :
    (s, c) ∈ m.children ↔ m.child? s = some c := by
  cases s <;> simp [children, branches, Dict.get?_eq_some_iff]

namespace Marshal

-- The text of a branch, where `sub` is the number of segments and the text of its mask.
def segment (s : Step FieldKey) (sub : Nat × Text) : Text :=
  if sub.2 = [] then
    s.text
  else if sub.1 = 1 then
    s.text ++ Lexer.dot :: sub.2
  else
    s.text ++ Lexer.dot :: Lexer.lbrace :: (sub.2 ++ [Lexer.rbrace])

def join (ret : List Text) : Nat × Text :=
  (ret.length, [Lexer.comma].intercalate (ret.insertionSort (· ≤ ·)))

inductive Error
  -- The `RecursionError` for a cycle.
  | recursion
  -- The `KeyError` for a child without a result.
  | key
  -- Only objects have references, so this is not an error of the source.
  | dangling
  deriving DecidableEq

abbrev Results := Dict Nat (Nat × Text)

end Marshal

-- The state of the loop in `_marshal`. The stack `pending` has its top first.
structure Marshal where
  results : Marshal.Results
  visiting : List Nat
  pending : List (Nat × Bool)

namespace Marshal

def unvisited (m : Marshal) (h : MaskHeap FieldKey) : Nat :=
  ((List.range h.length).filter fun r => !m.results.contains r && !m.visiting.contains r).length

def push (results : Results) (r : Nat) (o : MaskObject FieldKey) (pending : List (Nat × Bool)) : List (Nat × Bool) :=
  ((o.children.map Prod.snd).filter fun c => !results.contains c).reverse.map (·, false) ++
    (r, true) :: pending

def segments (results : Results) (o : MaskObject FieldKey) : Option (List Text) :=
  o.children.mapM fun (s, c) => (results.get? c).map (segment s)

variable {h : MaskHeap FieldKey}

theorem unvisited_le {m m' : Marshal} (hm : ∀ r, m'.results.contains r = false → r ∉ m'.visiting →
      m.results.contains r = false ∧ r ∉ m.visiting) : m'.unvisited h ≤ m.unvisited h := by
  refine (List.monotone_filter_right _ fun r hr => ?_).length_le
  simpa using hm r (by simp_all) (by simp_all)

theorem unvisited_lt {m m' : Marshal} {r : Nat} (hr : r < h.length)
    (hres : m'.results = m.results) (hvis : m'.visiting = r :: m.visiting)
    (hn : m.results.contains r = false) (hv : r ∉ m.visiting) : m'.unvisited h < m.unvisited h := by
  refine Nat.lt_of_le_of_ne (unvisited_le <| by simp_all) fun he => ?_
  have hs : ((List.range h.length).filter fun r => !m'.results.contains r && !m'.visiting.contains r).Sublist
      ((List.range h.length).filter fun r => !m.results.contains r && !m.visiting.contains r) :=
    List.monotone_filter_right _ fun x hx => by simp_all
  have hmem : r ∈ (List.range h.length).filter fun r => !m.results.contains r && !m.visiting.contains r := by
    simp_all
  rw [← hs.eq_of_length he] at hmem
  simp [hvis] at hmem

-- The number of iterations that are left at most: every object is entered once and pushes itself and its
-- children then.
def measure (m : Marshal) (h : MaskHeap FieldKey) : Nat :=
  m.unvisited h * ((h.map (·.children.length)).sum + 2) + m.pending.length

theorem measure_lt_of_pop {m m' : Marshal} (hu : m'.unvisited h ≤ m.unvisited h)
    (hp : m'.pending.length < m.pending.length) : m'.measure h < m.measure h :=
  Nat.add_lt_add_of_le_of_lt (Nat.mul_le_mul_right _ hu) hp

theorem measure_lt_of_push {m m' : Marshal} {o : MaskObject FieldKey} (ho : o ∈ h) (hu : m'.unvisited h < m.unvisited h)
    (hp : m'.pending.length ≤ m.pending.length + o.children.length) : m'.measure h < m.measure h := by
  have hc : o.children.length ≤ (h.map (·.children.length)).sum :=
    List.le_sum_of_mem <| List.mem_map_of_mem ho
  have := Nat.mul_le_mul_right ((h.map (·.children.length)).sum + 2) (Nat.succ_le_of_lt hu)
  rw [Nat.succ_mul] at this
  simp only [measure]
  omega

theorem length_push_le {results : Results} {r : Nat} {o : MaskObject FieldKey} {pending : List (Nat × Bool)} :
    (push results r o pending).length ≤ pending.length + 1 + o.children.length := by
  have := List.length_filter_le (fun c => !results.contains c) (o.children.map Prod.snd)
  simp only [push, List.length_append, List.length_map, List.length_reverse, List.length_cons] at this ⊢
  omega

def loop (h : MaskHeap FieldKey) (m : Marshal) : Except Error Results :=
  match _hp : m.pending with
  | [] => .ok m.results
  | (r, expanded) :: pending =>
    match _hr : h[r]? with
    | none => .error .dangling
    | some o =>
      if expanded then
        match segments m.results o with
        | none => .error .key
        | some ret => loop h ⟨m.results.set r (join ret), m.visiting.erase r, pending⟩
      else if m.results.contains r then
        loop h { m with pending }
      else if m.visiting.contains r then
        .error .recursion
      else
        loop h ⟨m.results, r :: m.visiting, push m.results r o pending⟩
termination_by m.measure h
decreasing_by
  · refine measure_lt_of_pop (unvisited_le fun x hx hv => ?_) (by simp [_hp])
    by_cases hxr : x = r <;> simp_all [Dict.contains]
  · exact measure_lt_of_pop (unvisited_le fun _ hx hv => ⟨hx, hv⟩) (by simp [_hp])
  · have hr := (List.getElem?_eq_some_iff.mp _hr).1
    refine measure_lt_of_push (List.mem_of_getElem? _hr) ?_ (by simp [_hp, length_push_le])
    exact unvisited_lt hr rfl rfl (by simp_all) (by simp_all)

end Marshal

namespace MaskHeap

def marshal' (h : MaskHeap FieldKey) (r : Nat) : Except Marshal.Error (Nat × Text) := do
  let results ← Marshal.loop h ⟨∅, [], [(r, false)]⟩
  match results.get? r with
  | some t => return t
  | none => .error .key

def marshal (h : MaskHeap FieldKey) (r : Nat) : Except Marshal.Error Text :=
  (h.marshal' r).map Prod.snd

end MaskHeap

namespace Mask

def segmentOf (s : Step FieldKey) : List Text → Text
  | [] => s.text
  | [t] => s.text ++ [Lexer.dot] ++ t
  | ts => s.text ++ [Lexer.dot, Lexer.lbrace] ++ [Lexer.comma].intercalate ts ++ [Lexer.rbrace]

-- The plain recursive definition: the segments of a mask in ascending order, one for each branch.
def segments (m : Mask FieldKey) : List Text :=
  (m.children.attach.map fun ⟨(s, c), _⟩ => segmentOf s c.segments).mergeSort
termination_by m.size
decreasing_by exact size_child?_lt <| mem_children_iff.mp ‹_›

def marshalTree (m : Mask FieldKey) : Nat × Text :=
  (m.segments.length, [Lexer.comma].intercalate m.segments)

-- `frames` are left for the nested calls of `copy`, by which the parser ends.
def unmarshal (frames : Nat) (source : Text) : Except Parser.Failure (Mask FieldKey) :=
  Parser.parseWithin frames source

end Mask
