import PysdkModel.FieldMask.Theorems.Lattice
import PysdkModel.FieldMask.FieldKey

def Step.Covers {κ : Type} (s t : Step κ) : Prop :=
  s = .any ∨ s = t

namespace Mask

variable {κ : Type} [DecidableEq κ] {m o : Mask κ} {s : Step κ} {c : List (Step κ)}

-- A root-to-leaf sequence of steps in a mask that is not empty.
structure LeafChain (m : Mask κ) (c : List (Step κ)) : Prop where
  ne_nil : c ≠ []
  mem : c ∈ m.nodes
  leaf : ∀ s, c ++ [s] ∉ m.nodes

def Covered (o : Mask κ) (c : List (Step κ)) : Prop :=
  ∃ q ∈ o.nodes, List.Forall₂ Step.Covers q c

namespace LeafChain

theorem congr {m₁ m₂ : Mask κ} (h : m₁.nodes = m₂.nodes) : LeafChain m₁ c ↔ LeafChain m₂ c :=
  ⟨fun ⟨h₁, h₂, h₃⟩ => ⟨h₁, h ▸ h₂, h ▸ h₃⟩, fun ⟨h₁, h₂, h₃⟩ => ⟨h₁, h ▸ h₂, h ▸ h₃⟩⟩

theorem singleton_iff : LeafChain m [s] ↔ ∃ x, m.child? s = some x ∧ x.isEmpty := by
  constructor
  · intro ⟨_, hm, hl⟩
    have ⟨x, hx⟩ := singleton_mem_nodes.mp hm
    refine ⟨x, hx, isEmpty_iff.mpr fun t => ?_⟩
    by_contra ht
    have ⟨y, hy⟩ := Option.ne_none_iff_exists'.mp ht
    exact hl t <| cons_mem_nodes.mpr ⟨x, hx, singleton_mem_nodes.mpr ⟨y, hy⟩⟩
  · intro ⟨x, hx, he⟩
    refine ⟨List.cons_ne_nil _ _, singleton_mem_nodes.mpr ⟨x, hx⟩, fun t ht => ?_⟩
    have ⟨y, hy, ht⟩ := cons_mem_nodes.mp ht
    cases hx.symm.trans hy
    have ⟨z, hz⟩ := singleton_mem_nodes.mp ht
    simp [isEmpty_iff.mp he] at hz

theorem cons_iff (hc : c ≠ []) : LeafChain m (s :: c) ↔ ∃ x, m.child? s = some x ∧ LeafChain x c := by
  constructor
  · intro ⟨_, hm, hl⟩
    have ⟨x, hx, hm⟩ := cons_mem_nodes.mp hm
    exact ⟨x, hx, hc, hm, fun t ht => hl t <| cons_mem_nodes.mpr ⟨x, hx, ht⟩⟩
  · intro ⟨x, hx, _, hm, hl⟩
    refine ⟨List.cons_ne_nil _ _, cons_mem_nodes.mpr ⟨x, hx, hm⟩, fun t ht => ?_⟩
    have ⟨y, hy, ht⟩ := cons_mem_nodes.mp ht
    cases hx.symm.trans hy
    exact hl t ht

theorem not_isEmpty (h : LeafChain m c) : ¬m.isEmpty := by
  intro he
  have hm := h.mem
  rw [isEmpty_iff_nodes.mp he] at hm
  exact h.ne_nil hm

end LeafChain

theorem isEmpty_iff_no_leafChain : m.isEmpty ↔ ∀ c, ¬LeafChain m c := by
  refine ⟨fun he c h => h.not_isEmpty he, ?_⟩
  induction m using branch_induction
  case h m ih =>
    intro h
    rw [isEmpty_iff]
    intro s
    by_contra hs
    have ⟨x, hx⟩ := Option.ne_none_iff_exists'.mp hs
    have he : x.isEmpty := ih s x hx fun c hc => h (s :: c) <| (LeafChain.cons_iff hc.ne_nil).mpr ⟨x, hx, hc⟩
    exact h [s] <| LeafChain.singleton_iff.mpr ⟨x, hx, he⟩

theorem mem_nodes_iff_leafChain : c ∈ m.nodes ↔ c = [] ∨ ∃ d, LeafChain m d ∧ c <+: d := by
  constructor
  · induction c generalizing m
    case nil => simp
    case cons s c ih =>
      intro h
      obtain ⟨x, hx, hc⟩ := cons_mem_nodes.mp h
      refine .inr ?_
      by_cases he : x.isEmpty
      · rw [isEmpty_iff_nodes.mp he] at hc
        cases hc
        exact ⟨[s], LeafChain.singleton_iff.mpr ⟨x, hx, he⟩, List.prefix_refl _⟩
      · obtain ⟨d, hd, hp⟩ : ∃ d, LeafChain x d ∧ c <+: d := by
          cases ih hc
          case inl hc =>
            rw [isEmpty_iff_no_leafChain] at he
            push Not at he
            exact he.imp fun d hd => ⟨hd, hc ▸ List.nil_prefix⟩
          case inr hc => exact hc
        exact ⟨s :: d, (LeafChain.cons_iff hd.ne_nil).mpr ⟨x, hx, hd⟩, by simpa using hp⟩
  · rintro (rfl | ⟨d, hd, hp⟩)
    · exact nil_mem_nodes
    · exact mem_nodes_of_prefix hp hd.mem

theorem nodes_eq_of_leafChain {m₁ m₂ : Mask κ} (h : ∀ c, LeafChain m₁ c ↔ LeafChain m₂ c) : m₁.nodes = m₂.nodes := by
  ext c
  simp only [mem_nodes_iff_leafChain, h]

section Covered

theorem covered_nil : Covered o [] :=
  ⟨[], nil_mem_nodes, .nil⟩

theorem covered_empty : Covered (∅ : Mask κ) c ↔ c = [] := by
  simp [Covered, nodes_empty]

theorem covered_cons :
    Covered o (s :: c) ↔
      (∃ x, o.child? .any = some x ∧ Covered x c) ∨ (∃ x, o.child? s = some x ∧ Covered x c) := by
  simp only [Covered, List.forall₂_cons_right_iff]
  constructor
  · rintro ⟨_, hq, t, q, ht, h, rfl⟩
    obtain ⟨x, hx, hq⟩ := cons_mem_nodes.mp hq
    cases ht
    case inl ht => exact .inl ⟨x, ht ▸ hx, q, hq, h⟩
    case inr ht => exact .inr ⟨x, ht ▸ hx, q, hq, h⟩
  · rintro (⟨x, hx, q, hq, h⟩ | ⟨x, hx, q, hq, h⟩)
    · exact ⟨.any :: q, cons_mem_nodes.mpr ⟨x, hx, hq⟩, .any, q, .inl rfl, h, rfl⟩
    · exact ⟨s :: q, cons_mem_nodes.mpr ⟨x, hx, hq⟩, s, q, .inr rfl, h, rfl⟩

-- What the subtraction removes: the covered chains, and the chains that end in a wildcard below a
-- covered node. The source prunes the latter without looking at what `o` has below that node.
def Removed (o : Mask κ) (c : List (Step κ)) : Prop :=
  Covered o c ∨ ∃ q, c = q ++ [.any] ∧ Covered o q

theorem removed_cons (hc : c ≠ []) :
    Removed o (s :: c) ↔
      (∃ x, o.child? .any = some x ∧ Removed x c) ∨ (∃ x, o.child? s = some x ∧ Removed x c) := by
  have hq : (∃ q, s :: c = q ++ [.any] ∧ Covered o q) ↔ ∃ q, c = q ++ [.any] ∧ Covered o (s :: q) := by
    constructor
    · rintro ⟨_ | ⟨t, q⟩, h, ho⟩ <;> simp at h
      case nil => exact absurd h.right hc
      case cons => exact ⟨q, h.right, h.left ▸ ho⟩
    · exact fun ⟨q, h, ho⟩ => ⟨s :: q, by simp [h], ho⟩
  simp only [Removed, hq, covered_cons]
  grind

end Covered

def subtractBranch (v : Mask κ) (o : Option (Mask κ)) : Mask κ :=
  o.elim v v.subtractResetMask

theorem any_subtractResetMask :
    (m.subtractResetMask o).any = m.any.bind fun a =>
      if (a.subtractBranch o.any).isEmpty then none else some (a.subtractBranch o.any) := by
  rw [subtractResetMask]
  simp only [any_mk]
  cases m.any
  case none => rfl
  case some a =>
    simp only [Option.bind_some, subtractBranch]
    split <;> simp [*]

theorem get?_subtractResetMask {k : κ} :
    (m.subtractResetMask o).fieldParts.get? k = (m.fieldParts.get? k).bind fun v =>
      if o.any = none ∧ o.fieldParts.get? k = none then some v
      else
        let v := (v.subtractBranch o.any).subtractBranch (o.fieldParts.get? k)
        if v.isEmpty then none else some v := by
  rw [subtractResetMask]
  simp only [fieldParts_mk, Dict.get?_alterEach_simple]
  cases m.fieldParts.get? k
  case none => rfl
  case some v =>
    simp only [Option.elim_some, Option.bind_some, subtractBranch]
    cases ha : o.any <;> cases hw : o.fieldParts.get? k <;> simp [Dict.contains, hw] <;> rfl

-- The whole effect of the subtraction on the leaf chains. The induction is on the chain because a
-- named branch is subtracted from twice in a row, so neither operand alone gets smaller.
theorem leafChain_subtractResetMask : LeafChain (m.subtractResetMask o) c ↔ LeafChain m c ∧ ¬Removed o c := by
  induction c generalizing m o
  case nil => exact ⟨fun h => absurd rfl h.ne_nil, fun h => absurd rfl h.left.ne_nil⟩
  case cons s c ih =>
    have hb {x : Mask κ} {o : Option (Mask κ)} : LeafChain (x.subtractBranch o) c ↔
        LeafChain x c ∧ ¬∃ y, o = some y ∧ Removed y c := by
      cases o <;> simp [subtractBranch, ih]
    by_cases hc : c = []
    · subst hc
      rw [LeafChain.singleton_iff, LeafChain.singleton_iff]
      cases s
      case any =>
        have hr : Removed o [.any] := .inr ⟨[], rfl, covered_nil⟩
        simp only [child?_any, any_subtractResetMask, hr, not_true_eq_false, and_false, iff_false]
        cases m.any <;> simp
      case key k =>
        have hr : Removed o [.key k] ↔ ¬(o.any = none ∧ o.fieldParts.get? k = none) := by
          have hq : ¬∃ q, [Step.key k] = q ++ [.any] ∧ Covered o q := by
            rintro ⟨_ | ⟨t, q⟩, h, _⟩ <;> simp at h
          simp only [Removed, hq, covered_cons, covered_nil, or_false, and_true, child?_any, child?_key]
          cases o.any <;> cases o.fieldParts.get? k <;> simp
        simp only [child?_key, get?_subtractResetMask, hr, not_not]
        cases m.fieldParts.get? k
        case none => simp
        case some => grind
    · rw [LeafChain.cons_iff hc, LeafChain.cons_iff hc, removed_cons hc]
      cases s
      case any =>
        simp only [child?_any, any_subtractResetMask]
        cases m.any
        case none => simp
        case some a =>
          have he (h : LeafChain (a.subtractBranch o.any) c) := h.not_isEmpty
          simp only [Option.bind_some, Option.some.injEq, exists_eq_left', or_self, ← hb]
          grind
      case key k =>
        simp only [child?_any, child?_key, get?_subtractResetMask]
        cases m.fieldParts.get? k
        case none => simp
        case some v =>
          simp only [Option.bind_some, Option.some.injEq, exists_eq_left']
          let w := (v.subtractBranch o.any).subtractBranch (o.fieldParts.get? k)
          have he (h : LeafChain w c) := h.not_isEmpty
          have hw : LeafChain w c ↔ LeafChain v c ∧
              ¬((∃ x, o.any = some x ∧ Removed x c) ∨ ∃ x, o.fieldParts.get? k = some x ∧ Removed x c) := by
            rw [hb, hb, not_or, and_assoc]
          grind

theorem leafChain_sub : LeafChain (m - o) c ↔ LeafChain m c ∧ ¬Removed o c := by
  have hc : LeafChain m.copy c ↔ LeafChain m c := LeafChain.congr nodes_copy
  rw [← hc]
  exact leafChain_subtractResetMask

-- The chain structure that `m - o` is meant to have: the leaf chains of `m` that `o` does not cover.
structure SubtractsCovered (m o : Mask κ) : Prop where
  chains : ∀ c, LeafChain (m - o) c ↔ LeafChain m c ∧ ¬Covered o c
  empty : (m - o).isEmpty ↔ ¬∃ c, LeafChain m c ∧ ¬Covered o c

-- Every wildcard leaf of `m` below a node that `o` covers is covered by `o` itself.
def WildcardLeavesCovered (m o : Mask κ) : Prop :=
  ∀ q, LeafChain m (q ++ [.any]) → Covered o q → Covered o (q ++ [.any])

-- The subtraction removes exactly the covered leaves iff it meets no wildcard leaf below a covered
-- node that is not covered itself. In particular subtracting the empty mask changes a mask iff
-- that mask has a wildcard leaf at its root.
theorem subtractsCovered_iff (m o : Mask κ) :
    (SubtractsCovered m o ↔ WildcardLeavesCovered m o) ∧ (m - ∅ == m ↔ ¬LeafChain m [.any]) := by
  refine ⟨⟨fun h q hl hq => ?exact, fun h => ?covered⟩, ?empty⟩
  case exact =>
    by_contra hn
    have hs := (h.chains _).mpr ⟨hl, hn⟩
    exact (leafChain_sub.mp hs).right <| .inr ⟨q, rfl, hq⟩
  case covered =>
    have hs (c) : LeafChain (m - o) c ↔ LeafChain m c ∧ ¬Covered o c := by
      rw [leafChain_sub]
      refine and_congr_right fun hl => not_congr ⟨?_, .inl⟩
      rintro (hc | ⟨q, rfl, hq⟩)
      · exact hc
      · exact h q hl hq
    refine ⟨hs, ?_⟩
    simp only [isEmpty_iff_no_leafChain, hs, not_exists]
  case empty =>
    have hr {c} (hl : LeafChain m c) : Removed ∅ c ↔ c = [.any] := by
      simp only [Removed, covered_empty]
      constructor
      · rintro (hc | ⟨q, rfl, rfl⟩)
        · exact absurd hc hl.ne_nil
        · rfl
      · exact fun hc => .inr ⟨[], hc, rfl⟩
    rw [beq_iff_nodes]
    constructor
    · intro hn hl
      have hs := (LeafChain.congr hn).mpr hl
      exact (leafChain_sub.mp hs).right <| (hr hl).mpr rfl
    · intro hn
      refine nodes_eq_of_leafChain fun c => ?_
      rw [leafChain_sub]
      exact and_iff_left_of_imp fun hl => (hr hl).not.mpr fun hc => hn (hc ▸ hl)

-- The mask `*` loses its leaf although the empty mask covers nothing.
theorem not_subtractsCovered_wildcard : ¬SubtractsCovered (mk (some ∅) ∅ : Mask FieldKey) ∅ := by
  intro h
  have hl : LeafChain (mk (some ∅) ∅ : Mask FieldKey) [.any] :=
    LeafChain.singleton_iff.mpr ⟨∅, by simp, isEmpty_empty⟩
  have hs := (h.chains _).mpr ⟨hl, by simp [covered_empty]⟩
  exact (leafChain_sub.mp hs).right <| .inr ⟨[], rfl, covered_nil⟩

end Mask
