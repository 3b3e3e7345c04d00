import PysdkModel.FieldMask.Theorems.Subtraction

namespace Mask

variable {κ : Type} [DecidableEq κ] {m o o₁ o₂ : Mask κ} {s : Step κ} {c : List (Step κ)}

def dumbBranch : Option (Mask κ) → Option (Mask κ) → Option (Mask κ)
  | some a, some b => if (a.subtractDumb b).isEmpty then none else some (a.subtractDumb b)
  | a, _ => a

theorem child?_subtractDumb : (m.subtractDumb o).child? s = dumbBranch (m.child? s) (o.child? s) := by
  rw [subtractDumb]
  cases s
  case any =>
    simp only [child?_any, any_mk]
    cases m.any <;> cases o.any <;> rfl
  case key k =>
    simp only [child?_key, fieldParts_mk, Dict.get?_alterEach_simple]
    cases m.fieldParts.get? k <;> cases o.fieldParts.get? k <;> simp [dumbBranch]

-- A leaf of the left operand is removed exactly if the right operand has a node there. What the source prunes besides
-- are nodes that have lost all their leaves.
theorem leafChain_subtractDumb : LeafChain (m.subtractDumb o) c ↔ LeafChain m c ∧ c ∉ o.nodes := by
  induction c generalizing m o
  case nil => exact ⟨fun h => absurd rfl h.ne_nil, fun h => absurd rfl h.left.ne_nil⟩
  case cons s c ih =>
    by_cases hc : c = []
    · subst hc
      rw [LeafChain.singleton_iff, LeafChain.singleton_iff, singleton_mem_nodes, child?_subtractDumb]
      cases m.child? s <;> cases o.child? s <;> grind [dumbBranch]
    · rw [LeafChain.cons_iff hc, LeafChain.cons_iff hc, cons_mem_nodes, child?_subtractDumb]
      cases hm : m.child? s <;> cases ho : o.child? s
      case some.some a b =>
        have he (h : LeafChain (a.subtractDumb b) c) := h.not_isEmpty
        have ih : LeafChain (a.subtractDumb b) c ↔ LeafChain a c ∧ c ∉ b.nodes := ih
        grind [dumbBranch]
      all_goals grind [dumbBranch]

theorem leafChain_div : LeafChain (m / o) c ↔ LeafChain m c ∧ c ∉ o.nodes := by
  have hc : LeafChain m.copy c ↔ LeafChain m c := LeafChain.congr nodes_copy
  rw [← hc]
  exact leafChain_subtractDumb

theorem isEmpty_div_iff : (m / o).isEmpty ↔ ¬∃ c, LeafChain m c ∧ c ∉ o.nodes := by
  simp only [isEmpty_iff_no_leafChain, leafChain_div, not_exists]

theorem div_idem : m / o / o == m / o := by
  rw [beq_iff_nodes]
  refine nodes_eq_of_leafChain fun c => ?_
  simp only [leafChain_div]
  tauto

theorem div_right_comm : m / o₁ / o₂ == m / o₂ / o₁ := by
  rw [beq_iff_nodes]
  refine nodes_eq_of_leafChain fun c => ?_
  simp only [leafChain_div]
  tauto

end Mask
