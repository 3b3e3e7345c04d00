import PysdkModel.FieldMask.Theorems.Nodes

namespace Mask

variable {κ : Type} [DecidableEq κ] {a b c m : Mask κ}

theorem nodes_eq_iff_branches :
    a.nodes = b.nodes ↔ ∀ s, Option.Rel (fun x y => x.nodes = y.nodes) (a.child? s) (b.child? s) := by
  constructor
  · intro h s
    have hs : [s] ∈ a.nodes ↔ [s] ∈ b.nodes := by rw [h]
    rw [singleton_mem_nodes, singleton_mem_nodes] at hs
    cases ha : a.child? s <;> cases hb : b.child? s <;> simp [ha, hb] at hs ⊢
    ext p
    have hp : s :: p ∈ a.nodes ↔ s :: p ∈ b.nodes := by rw [h]
    simpa [cons_mem_nodes, ha, hb] using hp
  · intro h
    ext p
    cases p
    case nil => simp [nil_mem_nodes]
    case cons s p =>
      rw [cons_mem_nodes, cons_mem_nodes]
      have hs := h s
      cases ha : a.child? s <;> cases hb : b.child? s <;> simp [ha, hb] at hs ⊢
      rw [hs]

-- `__eq__` compares one branch after the other. The induction is on both sizes because the named
-- branches are compared with the operands swapped.
theorem eq_iff_nodes {a b : Mask κ} : a.eq b ↔ a.nodes = b.nodes := by
  rw [nodes_eq_iff_branches, eq]
  simp only [Bool.and_eq_true, beq_iff_eq, List.all_eq_true, List.mem_attach, true_implies,
    Subtype.forall, Prod.forall]
  constructor
  · rintro ⟨⟨ha, hl⟩, hp⟩ s
    have hk (k v) (hm : (k, v) ∈ a.fieldParts.entries) :
        ∃ w, b.fieldParts.get? k = some w ∧ w.nodes = v.nodes := by
      have hp := hp k v hm
      split at hp
      case h_1 w hw => exact ⟨w, hw, eq_iff_nodes.mp hp⟩
      case h_2 => contradiction
    cases s
    case any =>
      simp only [child?_any]
      split at ha
      case h_1 x y hx hy => rw [hx, hy]; exact .some (eq_iff_nodes.mp ha)
      case h_2 hx hy => rw [hx, hy]; exact .none
      case h_3 => contradiction
    case key k =>
      simp only [child?_key]
      cases hv : a.fieldParts.get? k
      case some v =>
        obtain ⟨w, hw, h⟩ := hk k v <| Dict.get?_eq_some_iff.mp hv
        rw [hw]
        exact .some h.symm
      case none =>
        have hs : a.fieldParts.keys ⊆ b.fieldParts.keys := by
          intro j hj
          obtain ⟨v, hv⟩ := Dict.mem_keys_iff.mp hj
          obtain ⟨w, hw, _⟩ := hk j v <| Dict.get?_eq_some_iff.mp hv
          exact Dict.mem_keys_iff.mpr ⟨w, hw⟩
        have hs := Dict.keys_subset_of_length_eq hl hs
        have hk := mt (@hs k) <| Dict.get?_eq_none_iff.mp hv
        rw [Dict.get?_eq_none_iff.mpr hk]
        exact .none
  · intro h
    refine ⟨⟨?any, ?length⟩, ?parts⟩
    case any =>
      have ha := h .any
      simp only [child?_any] at ha
      split
      case h_1 x y hx hy =>
        simp only [hx, hy, Option.rel_some_some] at ha
        exact eq_iff_nodes.mpr ha
      case h_2 => rfl
      case h_3 h₁ h₂ => cases hx : a.any <;> cases hy : b.any <;> simp_all
    case length =>
      apply Dict.length_eq_of_keys_iff
      intro k
      have hk := h (.key k)
      simp only [child?_key] at hk
      rw [Dict.mem_keys_iff, Dict.mem_keys_iff]
      cases hx : a.fieldParts.get? k <;> cases hy : b.fieldParts.get? k <;> simp_all
    case parts =>
      intro k v hv
      have hk := h (.key k)
      simp only [child?_key, Dict.get?_eq_some_iff.mpr hv] at hk
      split
      case h_1 w hw =>
        simp only [hw, Option.rel_some_some] at hk
        exact eq_iff_nodes.mpr hk.symm
      case h_2 hw => simp [hw] at hk
termination_by a.size + b.size
decreasing_by
  · have := size_fieldParts_lt ‹(k, v) ∈ _›
    have := size_fieldParts_lt <| Dict.get?_eq_some_iff.mp ‹b.fieldParts.get? k = _›
    omega
  · have := size_any_lt ‹a.any = _›; have := size_any_lt ‹b.any = _›; omega
  · have := size_any_lt ‹a.any = _›; have := size_any_lt ‹b.any = _›; omega
  · have := size_fieldParts_lt ‹(k, v) ∈ _›
    have := size_fieldParts_lt <| Dict.get?_eq_some_iff.mp ‹b.fieldParts.get? k = _›
    omega

theorem beq_iff_nodes : (a == b) ↔ a.nodes = b.nodes :=
  eq_iff_nodes

theorem nodes_copy : m.copy.nodes = m.nodes := by
  ext p
  induction p generalizing m
  case nil => simp [nil_mem_nodes]
  case cons s p ih =>
    rw [cons_mem_nodes, cons_mem_nodes, child?_copy]
    cases m.child? s <;> simp [ih]

theorem nodes_iadd : (a.iadd b).nodes = a.nodes ∪ b.nodes := by
  ext p
  induction p generalizing a b
  case nil => simp [nil_mem_nodes]
  case cons s p ih =>
    simp only [Set.mem_union, cons_mem_nodes, child?_iadd] at ih ⊢
    cases a.child? s <;> cases b.child? s <;> simp [mergeBranch, nodes_copy, ih]

theorem nodes_add : (a + b).nodes = a.nodes ∪ b.nodes := by
  rw [← nodes_copy (m := a)]
  exact nodes_iadd

theorem nodes_intersectDumb : (a.intersectDumb b).nodes = a.nodes ∩ b.nodes := by
  ext p
  induction p generalizing a b
  case nil => simp [nil_mem_nodes]
  case cons s p ih =>
    simp only [Set.mem_inter_iff, cons_mem_nodes, child?_intersectDumb] at ih ⊢
    cases a.child? s <;> cases b.child? s <;> simp [ih]

theorem nodes_mul : (a * b).nodes = a.nodes ∩ b.nodes := by
  rw [← nodes_copy (m := a)]
  exact nodes_intersectDumb

section Matching

variable {k : κ} {p : List κ}

@[simp]
theorem matchesResetMask_nil : matchesResetMask [] m :=
  rfl

theorem matchesResetMask_cons :
    matchesResetMask (k :: p) m ↔
      (∃ c, m.child? .any = some c ∧ matchesResetMask p c) ∨
      (∃ c, m.child? (.key k) = some c ∧ matchesResetMask p c) := by
  simp only [child?_any, child?_key, matchesResetMask, matchesResetMaskFinal]
  cases m.any <;> cases m.fieldParts.get? k <;> simp

theorem matchesResetMask_iff_nodes :
    matchesResetMask p m ↔ ∃ q ∈ m.nodes, List.Forall₂ (fun s k => s = .any ∨ s = .key k) q p := by
  induction p generalizing m
  case nil => simp [nil_mem_nodes]
  case cons k p ih =>
    simp only [matchesResetMask_cons, ih, List.forall₂_cons_right_iff]
    constructor
    · rintro (⟨c, hc, q, hq, h⟩ | ⟨c, hc, q, hq, h⟩)
      · exact ⟨.any :: q, cons_mem_nodes.mpr ⟨c, hc, hq⟩, .any, q, .inl rfl, h, rfl⟩
      · exact ⟨.key k :: q, cons_mem_nodes.mpr ⟨c, hc, hq⟩, .key k, q, .inr rfl, h, rfl⟩
    · rintro ⟨_, hq, s, q, hs, h, rfl⟩
      obtain ⟨c, hc, hq⟩ := cons_mem_nodes.mp hq
      cases hs
      case inl hs => exact .inl ⟨c, hs ▸ hc, q, hq, h⟩
      case inr hs => exact .inr ⟨c, hs ▸ hc, q, hq, h⟩

theorem matchesResetMask_congr (h : a.nodes = b.nodes) : matchesResetMask p a ↔ matchesResetMask p b := by
  rw [matchesResetMask_iff_nodes, matchesResetMask_iff_nodes, h]

theorem matchesResetMask_iadd : matchesResetMask p (a.iadd b) ↔ matchesResetMask p a ∨ matchesResetMask p b := by
  simp only [matchesResetMask_iff_nodes, nodes_iadd, Set.mem_union]
  constructor
  · rintro ⟨q, hq | hq, h⟩ <;> [left; right] <;> exact ⟨q, hq, h⟩
  · rintro (⟨q, hq, h⟩ | ⟨q, hq, h⟩) <;> [exact ⟨q, .inl hq, h⟩; exact ⟨q, .inr hq, h⟩]

theorem matchesResetMask_add : matchesResetMask p (a + b) ↔ matchesResetMask p a ∨ matchesResetMask p b := by
  rw [← matchesResetMask_congr (nodes_copy (m := a))]
  exact matchesResetMask_iadd

end Matching

-- The merge is a semilattice that preserves matching, and forms a distributive lattice together
-- with the simple intersection. On the abstract view these are the union and the intersection of
-- sets of paths.
theorem merge_intersectDumb_lattice (a b c : Mask κ) (p : List κ) :
    (a + b == b + a) ∧ ((a + b) + c == a + (b + c)) ∧ (a + a == a) ∧ (a + ∅ == a) ∧
    (matchesResetMask p (a + b) ↔ matchesResetMask p a ∨ matchesResetMask p b) ∧
    (a * b == b * a) ∧ (a * (a + b) == a) ∧ (a + (a * b) == a) ∧ (a * (b + c) == (a * b) + (a * c)) := by
  refine ⟨?_, ?_, ?_, ?_, matchesResetMask_add, ?_, ?_, ?_, ?_⟩ <;>
    simp only [beq_iff_nodes, nodes_add, nodes_mul, nodes_empty]
  · exact Set.union_comm ..
  · exact Set.union_assoc ..
  · exact Set.union_self _
  · exact Set.union_eq_self_of_subset_right <| by simpa using nil_mem_nodes
  · exact Set.inter_comm ..
  · exact inf_sup_self
  · exact sup_inf_self
  · exact Set.inter_union_distrib_left ..

end Mask
