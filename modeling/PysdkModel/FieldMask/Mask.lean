import PysdkModel.Lib.Dict

namespace Raw

-- A mask tree whose field parts are a plain list. A key may occur twice here, so this type is only
-- the carrier of `Mask`.
inductive Mask (κ : Type)
  | node (any : Option (Mask κ)) (fieldParts : List (κ × Mask κ))

namespace Mask

variable {κ : Type}

inductive WF : Mask κ → Prop
  | node {any : Option (Mask κ)} {fieldParts : List (κ × Mask κ)} :
    (∀ m ∈ any, WF m) → (fieldParts.map Prod.fst).Nodup → (∀ e ∈ fieldParts, WF e.2) →
    WF (.node any fieldParts)

end Mask
end Raw

-- Tree representation of a field mask: an optional wildcard branch and a dictionary of named
-- branches. The source's keys are strings (`FieldKey`), but all mask operations other than
-- marshalling only ever compare them, so the key type is left open.
--
-- The name `mk` of the constructor is given to the function below, which takes the two attributes
-- of the source's class and makes this type look like an inductive type over `Dict`.
structure Mask (κ : Type) where ofRaw ::
  raw : Raw.Mask κ
  rawWF : raw.WF

inductive Step (κ : Type)
  | any
  | key (k : κ)
  deriving DecidableEq

namespace Mask

variable {κ : Type}

def mk (any : Option (Mask κ)) (fieldParts : Dict κ (Mask κ)) : Mask κ where
  raw := .node (any.map raw) (fieldParts.entries.map fun (k, m) => (k, m.raw))
  rawWF := by
    refine .node ?_ ?_ ?_
    · intro m hm
      obtain ⟨m, -, rfl⟩ := Option.map_eq_some_iff.mp hm
      exact m.rawWF
    · simpa [Function.comp_def] using fieldParts.nodup
    · intro e he
      obtain ⟨e, -, rfl⟩ := List.mem_map.mp he
      exact e.2.rawWF

def any : Mask κ → Option (Mask κ)
  | ⟨.node any _, wf⟩ => any.attach.map fun m => ⟨m.1, by cases wf with | node ha => exact ha _ m.2⟩

def fieldParts : Mask κ → Dict κ (Mask κ)
  | ⟨.node _ fieldParts, wf⟩ => {
      entries := fieldParts.attach.map fun e =>
        (e.1.1, ⟨e.1.2, by cases wf with | node _ _ hf => exact hf _ e.2⟩)
      nodup := by
        cases wf with
        | node _ hn =>
          simp only [List.map_map, Function.comp_def]
          rwa [← List.attach_map_subtype_val fieldParts, List.map_map] at hn
    }

@[simp]
theorem any_mk {any : Option (Mask κ)} {fieldParts : Dict κ (Mask κ)} : (mk any fieldParts).any = any := by
  cases any <;> simp [mk, Mask.any]

@[simp]
theorem fieldParts_mk {any : Option (Mask κ)} {fieldParts : Dict κ (Mask κ)} :
    (mk any fieldParts).fieldParts = fieldParts := by
  ext1
  simp only [mk, Mask.fieldParts]
  apply List.ext_getElem <;> simp

noncomputable def size (m : Mask κ) : Nat :=
  sizeOf m.raw

variable {m : Mask κ}

theorem size_any_lt {a : Mask κ} (h : m.any = some a) : a.size < m.size := by
  obtain ⟨⟨any, fieldParts⟩, wf⟩ := m
  cases any <;> simp [Mask.any] at h
  subst h
  simp only [size, Raw.Mask.node.sizeOf_spec, Option.some.sizeOf_spec]
  omega

theorem size_fieldParts_lt {p : Mask κ} {k : κ} (h : (k, p) ∈ m.fieldParts.entries) : p.size < m.size := by
  obtain ⟨⟨any, fieldParts⟩, wf⟩ := m
  simp only [Mask.fieldParts, List.mem_map, List.mem_attach, true_and, Subtype.exists] at h
  obtain ⟨e, he, h⟩ := h
  cases h
  have := List.sizeOf_lt_of_mem he
  obtain ⟨k, p⟩ := e
  simp only [size, Raw.Mask.node.sizeOf_spec, Prod.mk.sizeOf_spec] at this ⊢
  omega

def empty : Mask κ :=
  mk none ∅

instance : EmptyCollection (Mask κ) where
  emptyCollection := empty

instance : Inhabited (Mask κ) where
  default := ∅

theorem any_empty : (∅ : Mask κ).any = none :=
  any_mk

theorem fieldParts_empty : (∅ : Mask κ).fieldParts = ∅ :=
  fieldParts_mk

def isEmpty (m : Mask κ) : Bool :=
  m.any.isNone && m.fieldParts.isEmpty

variable [DecidableEq κ]

def child? (m : Mask κ) : Step κ → Option (Mask κ)
  | .any => m.any
  | .key k => m.fieldParts.get? k

@[simp]
theorem child?_any : m.child? .any = m.any :=
  rfl

@[simp]
theorem child?_key {k : κ} : m.child? (.key k) = m.fieldParts.get? k :=
  rfl

theorem size_child?_lt {c : Mask κ} {s : Step κ} (h : m.child? s = some c) : c.size < m.size := by
  cases s
  case any => exact size_any_lt h
  case key => exact size_fieldParts_lt <| Dict.get?_eq_some_iff.mp h

theorem branch_induction {motive : Mask κ → Prop}
    (h : ∀ m, (∀ s c, m.child? s = some c → motive c) → motive m) (m : Mask κ) : motive m :=
  h m fun _ c _ => branch_induction h c
termination_by m.size
decreasing_by exact size_child?_lt ‹_›

@[simp]
theorem child?_empty {s : Step κ} : (∅ : Mask κ).child? s = none := by
  cases s <;> simp [child?, any_empty, fieldParts_empty]

theorem isEmpty_iff : m.isEmpty ↔ ∀ s, m.child? s = none := by
  simp only [isEmpty, Bool.and_eq_true, Option.isNone_iff_eq_none, Dict.isEmpty_iff]
  constructor
  · rintro ⟨ha, hf⟩ s
    cases s
    case any => exact ha
    case key => exact hf _
  · exact fun h => ⟨h .any, fun k => h (.key k)⟩

theorem isEmpty_empty : (∅ : Mask κ).isEmpty := by
  simp [isEmpty_iff]

end Mask
