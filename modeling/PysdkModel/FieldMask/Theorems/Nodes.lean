import PysdkModel.FieldMask.Operations
import Mathlib.Data.Set.Insert

namespace Mask

variable {κ : Type} [DecidableEq κ]

def walk (m : Mask κ) : List (Step κ) → Option (Mask κ)
  | [] => some m
  | s :: p => (m.child? s).bind (·.walk p)

-- The abstract view of a mask: the set of paths from its root to its nodes.
def nodes (m : Mask κ) : Set (List (Step κ)) :=
  { p | (m.walk p).isSome }

variable {m : Mask κ}

theorem mem_nodes_iff {p : List (Step κ)} : p ∈ m.nodes ↔ ∃ c, m.walk p = some c :=
  Option.isSome_iff_exists

theorem nil_mem_nodes : [] ∈ m.nodes :=
  mem_nodes_iff.mpr ⟨m, rfl⟩

variable {s : Step κ}

theorem cons_mem_nodes {p : List (Step κ)} : s :: p ∈ m.nodes ↔ ∃ c, m.child? s = some c ∧ p ∈ c.nodes := by
  simp only [mem_nodes_iff, walk, Option.bind_eq_some_iff]
  tauto

theorem singleton_mem_nodes : [s] ∈ m.nodes ↔ ∃ c, m.child? s = some c := by
  simp [cons_mem_nodes, nil_mem_nodes]

theorem mem_nodes_of_prefix {p q : List (Step κ)} (h : p <+: q) (hq : q ∈ m.nodes) : p ∈ m.nodes := by
  induction p generalizing m q
  case nil => exact nil_mem_nodes
  case cons s p ih =>
    obtain ⟨t, rfl⟩ := h
    rw [List.cons_append, cons_mem_nodes] at hq
    have ⟨c, hc, hq⟩ := hq
    exact cons_mem_nodes.mpr ⟨c, hc, ih ⟨t, rfl⟩ hq⟩

theorem nodes_empty : (∅ : Mask κ).nodes = {[]} := by
  ext p
  cases p <;> simp [nil_mem_nodes, cons_mem_nodes]

theorem isEmpty_iff_nodes : m.isEmpty ↔ m.nodes = {[]} := by
  constructor
  · intro h
    ext p
    cases p <;> simp [nil_mem_nodes, cons_mem_nodes, isEmpty_iff.mp h]
  · intro h
    rw [isEmpty_iff]
    intro s
    by_contra hc
    have ⟨c, hc⟩ := Option.ne_none_iff_exists'.mp hc
    have hs : [s] ∈ m.nodes := singleton_mem_nodes.mpr ⟨c, hc⟩
    simp [h] at hs

section Branches

variable {m a b : Mask κ}

theorem child?_copy : m.copy.child? s = (m.child? s).map copy := by
  rw [copy]
  cases s
  case any =>
    simp only [child?_any, any_mk]
    split <;> simp [*]
  case key k =>
    simp only [child?_key, fieldParts_mk, Dict.get?_alterEach_simple, Dict.get?_empty]
    cases m.fieldParts.get? k <;> rfl

def mergeBranch : Option (Mask κ) → Option (Mask κ) → Option (Mask κ)
  | some a, some b => some (a.iadd b)
  | some a, none => some a
  | none, some b => some b.copy
  | none, none => none

theorem child?_iadd : (a.iadd b).child? s = mergeBranch (a.child? s) (b.child? s) := by
  rw [iadd]
  split
  case isTrue h =>
    rw [isEmpty_iff.mp h]
    cases a.child? s <;> rfl
  cases s
  case any =>
    simp only [child?_any, any_mk]
    split <;> simp [*, mergeBranch]
  case key k =>
    simp only [child?_key, fieldParts_mk, Dict.get?_alterEach_simple]
    cases b.fieldParts.get? k <;> cases a.fieldParts.get? k <;> rfl

theorem child?_intersectDumb : (a.intersectDumb b).child? s =
      (a.child? s).bind fun x => (b.child? s).map fun y => x.intersectDumb y := by
  rw [intersectDumb]
  cases s
  case any =>
    simp only [child?_any, any_mk]
    split
    case h_1 h₁ h₂ => simp [h₁, h₂]
    case h_2 h => cases ha : a.any <;> cases hb : b.any <;> simp_all
  case key k =>
    simp only [child?_key, fieldParts_mk, Dict.get?_alterEach_simple]
    cases a.fieldParts.get? k <;> cases b.fieldParts.get? k <;> simp

end Branches
end Mask
