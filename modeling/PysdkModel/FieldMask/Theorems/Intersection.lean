import PysdkModel.FieldMask.Theorems.Lattice

namespace Mask

variable {κ : Type} [DecidableEq κ] {m n : Mask κ} {k : κ}

theorem any_intersectResetMask : (m &&& n).any = m.any.bind fun a => n.any.map fun b => a &&& b := by
  change (m.intersectResetMask n).any = _
  rw [intersectResetMask]
  simp only [any_mk]
  split
  case h_1 ha hb => simp [ha, hb]; rfl
  case h_2 h => cases ha : m.any <;> cases hb : n.any <;> simp_all

-- The entry of `k` as the three loops of the source leave it: the first one sets it, the other two
-- merge into it.
theorem get?_intersectResetMask :
    (m &&& n).fieldParts.get? k =
      let first := m.any.bind fun a => (n.fieldParts.get? k).map fun w => a &&& w
      let second := n.any.elim first fun b => (m.fieldParts.get? k).elim first fun v =>
        addPart (b &&& v) first
      (m.fieldParts.get? k).elim second fun v => (n.fieldParts.get? k).elim second fun w =>
        addPart (v &&& w) second := by
  change (m.intersectResetMask n).fieldParts.get? k = _
  rw [intersectResetMask]
  simp only [fieldParts_mk, Dict.get?_alterEach_simple]
  cases ha : m.any <;> cases hb : n.any <;> cases hv : m.fieldParts.get? k <;>
    cases hw : n.fieldParts.get? k <;> simp [Dict.get?_alterEach_simple, hv, hw] <;> rfl

section

variable {Q : Mask κ → Prop}

theorem exists_addPart_iff (hQ : ∀ x y, Q (x.iadd y) ↔ Q x ∨ Q y) {x : Mask κ} {o : Option (Mask κ)} :
    (∃ c, addPart x o = some c ∧ Q c) ↔ (∃ c, o = some c ∧ Q c) ∨ Q x := by
  cases o <;> simp [addPart, hQ]

theorem exists_branch_intersectResetMask (hQ : ∀ x y, Q (x.iadd y) ↔ Q x ∨ Q y) :
    (∃ c, (m &&& n).child? (.key k) = some c ∧ Q c) ↔
      (∃ a w, m.any = some a ∧ n.fieldParts.get? k = some w ∧ Q (a &&& w)) ∨
      (∃ b v, n.any = some b ∧ m.fieldParts.get? k = some v ∧ Q (b &&& v)) ∨
      (∃ v w, m.fieldParts.get? k = some v ∧ n.fieldParts.get? k = some w ∧ Q (v &&& w)) := by
  rw [child?_key, get?_intersectResetMask]
  cases m.any <;> cases n.any <;> cases m.fieldParts.get? k <;> cases n.fieldParts.get? k <;>
    simp [exists_addPart_iff hQ, or_assoc]

end

theorem nodes_intersectResetMask_comm : (m &&& n).nodes = (n &&& m).nodes := by
  ext p
  induction p generalizing m n
  case nil => simp [nil_mem_nodes]
  case cons s p ih =>
    rw [cons_mem_nodes, cons_mem_nodes]
    cases s
    case any =>
      simp only [child?_any, any_intersectResetMask]
      cases m.any <;> cases n.any <;> simp [ih]
    case key k =>
      have hQ (x y : Mask κ) : p ∈ (x.iadd y).nodes ↔ p ∈ x.nodes ∨ p ∈ y.nodes := by
        rw [nodes_iadd, Set.mem_union]
      -- The first two products of `m & n` are those of `n & m` in the other order.
      rw [exists_branch_intersectResetMask hQ, exists_branch_intersectResetMask hQ, or_left_comm]
      have hc : (∃ v w, m.fieldParts.get? k = some v ∧ n.fieldParts.get? k = some w ∧
            p ∈ (v &&& w).nodes) ↔
          (∃ v w, n.fieldParts.get? k = some v ∧ m.fieldParts.get? k = some w ∧
            p ∈ (v &&& w).nodes) := by
        constructor <;> rintro ⟨v, w, hv, hw, h⟩ <;> exact ⟨w, v, hw, hv, ih.mp h⟩
      rw [hc]

theorem matchesResetMask_intersectResetMask {p : List κ} :
    matchesResetMask p (m &&& n) ↔ matchesResetMask p m ∧ matchesResetMask p n := by
  induction p generalizing m n
  case nil => simp
  case cons k p ih =>
    have hQ (x y : Mask κ) := matchesResetMask_iadd (a := x) (b := y) (p := p)
    rw [matchesResetMask_cons, exists_branch_intersectResetMask hQ, matchesResetMask_cons,
      matchesResetMask_cons]
    simp only [child?_any, child?_key, any_intersectResetMask]
    cases m.any <;> cases n.any <;> cases m.fieldParts.get? k <;> cases n.fieldParts.get? k <;>
      simp [ih] <;> tauto

-- The reset-mask intersection selects exactly the paths that both masks select, wherever wildcards
-- occur, and does not depend on the order of its operands.
theorem intersectResetMask_matches_and_comm (m n : Mask κ) (p : List κ) :
    (matchesResetMask p (m &&& n) ↔ matchesResetMask p m ∧ matchesResetMask p n) ∧ (m &&& n == n &&& m) :=
  ⟨matchesResetMask_intersectResetMask, beq_iff_nodes.mpr nodes_intersectResetMask_comm⟩

end Mask
