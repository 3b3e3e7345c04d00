import PysdkModel.FieldMask.Theorems.Lattice
import PysdkModel.FieldMask.FieldKey

namespace Mask

variable {κ : Type} [DecidableEq κ] {m a : Mask κ} {k : κ} {p q : List κ}

theorem combine_iff {a b c : Prop} [Decidable a] : (if a then b ∨ c else b) ↔ b ∨ a ∧ c := by
  split <;> simp_all

theorem matchesResetMaskFinal_cons :
    (matchesResetMaskFinal (k :: p) m).2 ↔
      (∃ c, m.child? .any = some c ∧ (matchesResetMaskFinal p c).2) ∨
      (∃ c, m.child? (.key k) = some c ∧ matchesResetMask p c ∧ (matchesResetMaskFinal p c).2) := by
  simp only [child?_any, child?_key, matchesResetMask, matchesResetMaskFinal]
  cases m.any <;> cases m.fieldParts.get? k <;> simp [combine_iff]

theorem matchesResetMask_of_final (h : (matchesResetMaskFinal p m).2) : matchesResetMask p m := by
  induction p generalizing m
  case nil => rfl
  case cons k p ih =>
    rw [matchesResetMask_cons]
    rcases matchesResetMaskFinal_cons.mp h with ⟨c, hc, h⟩ | ⟨c, hc, hm, -⟩
    · exact .inl ⟨c, hc, ih h⟩
    · exact .inr ⟨c, hc, hm⟩

theorem endsResetMask_iff : endsResetMask p m ↔ (matchesResetMaskFinal p m).2 := by
  simp only [endsResetMask, Bool.and_eq_true, and_iff_right_iff_imp]
  exact matchesResetMask_of_final

theorem matchesResetMask_of_ends (h : endsResetMask p m) : matchesResetMask p m :=
  matchesResetMask_of_final <| endsResetMask_iff.mp h

theorem endsResetMask_nil : endsResetMask [] m ↔ m.isEmpty := by
  simp [endsResetMask_iff, matchesResetMaskFinal]

theorem endsResetMask_cons :
    endsResetMask (k :: p) m ↔
      (∃ c, m.child? .any = some c ∧ endsResetMask p c) ∨
      (∃ c, m.child? (.key k) = some c ∧ endsResetMask p c) := by
  simp only [endsResetMask_iff, matchesResetMaskFinal_cons]
  refine or_congr_right <| exists_congr fun c => and_congr_right fun _ => ?_
  exact and_iff_right_of_imp matchesResetMask_of_final

def BelowLeaf (p : List κ) (m : Mask κ) : Prop :=
  ∃ q, q <+: p ∧ q ≠ p ∧ endsResetMask q m

theorem not_belowLeaf_nil : ¬BelowLeaf [] m := by
  rintro ⟨q, hq, hne, -⟩
  exact hne <| List.prefix_nil.mp hq

theorem belowLeaf_cons :
    BelowLeaf (k :: p) m ↔
      m.isEmpty ∨ (∃ c, m.child? .any = some c ∧ BelowLeaf p c) ∨
      (∃ c, m.child? (.key k) = some c ∧ BelowLeaf p c) := by
  constructor
  · rintro ⟨q, hq, hne, he⟩
    rcases List.prefix_cons_iff.mp hq with rfl | ⟨q, rfl, hq'⟩
    case inl => exact .inl <| endsResetMask_nil.mp he
    have hne : q ≠ p := fun h => hne <| congrArg _ h
    rcases endsResetMask_cons.mp he with ⟨c, hc, he⟩ | ⟨c, hc, he⟩
    · exact .inr <| .inl ⟨c, hc, q, hq', hne, he⟩
    · exact .inr <| .inr ⟨c, hc, q, hq', hne, he⟩
  · have hcons {q : List κ} (hq : q <+: p) (hne : q ≠ p) : k :: q <+: k :: p ∧ k :: q ≠ k :: p :=
      ⟨(List.prefix_append_right_inj [k]).mpr hq, by simpa⟩
    rintro (he | ⟨c, hc, q, hq, hne, he⟩ | ⟨c, hc, q, hq, hne, he⟩)
    · exact ⟨[], List.nil_prefix, by simp, endsResetMask_nil.mpr he⟩
    · exact ⟨k :: q, (hcons hq hne).left, (hcons hq hne).right, endsResetMask_cons.mpr <| .inl ⟨c, hc, he⟩⟩
    · exact ⟨k :: q, (hcons hq hne).left, (hcons hq hne).right, endsResetMask_cons.mpr <| .inr ⟨c, hc, he⟩⟩

theorem matchesSelectMask_cons (hm : m.isEmpty = false) :
    matchesSelectMask (k :: p) m ↔
      (∃ c, m.child? .any = some c ∧ matchesSelectMask p c) ∨
      (∃ c, m.child? (.key k) = some c ∧ matchesSelectMask p c) := by
  simp only [child?_any, child?_key, matchesSelectMask, matchesSelectMaskInner, hm]
  cases m.any <;> cases m.fieldParts.get? k <;> simp

theorem matchesSelectMaskInner_cons (hm : m.isEmpty = false) :
    (matchesSelectMaskInner (k :: p) m).2 ↔
      (∃ c, m.child? .any = some c ∧ (matchesSelectMaskInner p c).2) ∨
      (∃ c, m.child? (.key k) = some c ∧ matchesSelectMask p c ∧ (matchesSelectMaskInner p c).2) := by
  simp only [child?_any, child?_key, matchesSelectMask, matchesSelectMaskInner, hm]
  cases m.any <;> cases m.fieldParts.get? k <;> simp [combine_iff]

theorem matchesSelectMaskInner_iff : (matchesSelectMask p m ↔ matchesResetMask p m ∨ BelowLeaf p m) ∧
    ((matchesSelectMaskInner p m).2 ↔ BelowLeaf p m) := by
  induction p generalizing m
  case nil => simp [matchesSelectMask, matchesSelectMaskInner, not_belowLeaf_nil]
  case cons k p ih =>
    cases hm : m.isEmpty
    case true => simp [matchesSelectMask, matchesSelectMaskInner, hm, belowLeaf_cons]
    case false =>
      rw [matchesSelectMask_cons hm, matchesSelectMaskInner_cons hm, matchesResetMask_cons, belowLeaf_cons]
      simp only [ih, hm]
      grind

theorem matchesResetMask_prefix (h : q <+: p) (hp : matchesResetMask p m) : matchesResetMask q m := by
  induction q generalizing p m
  case nil => rfl
  case cons k q ih =>
    obtain ⟨r, rfl⟩ := h
    rw [List.cons_append, matchesResetMask_cons] at hp
    rw [matchesResetMask_cons]
    rcases hp with ⟨c, hc, hp⟩ | ⟨c, hc, hp⟩
    · exact .inl ⟨c, hc, ih (List.prefix_append q r) hp⟩
    · exact .inr ⟨c, hc, ih (List.prefix_append q r) hp⟩

-- Select matching is reset matching plus everything below a leaf. It is closed under prefixes and
-- contains everything from a leaf on.
theorem matchesSelectMask_eq (p : List κ) (m : Mask κ) :
    ((matchesSelectMaskInner p m).1 ↔ matchesResetMask p m ∨ BelowLeaf p m) ∧
    ((matchesSelectMaskInner p m).2 ↔ BelowLeaf p m) ∧ (∀ q, q <+: p → matchesSelectMask p m → matchesSelectMask q m) ∧
    (∀ q, q <+: p → endsResetMask q m → matchesSelectMask p m) := by
  have hiff := matchesSelectMaskInner_iff (p := p) (m := m)
  refine ⟨hiff.left, hiff.right, fun q hq hp => ?_, fun q hq he => ?_⟩
  case refine_1 =>
    rw [matchesSelectMaskInner_iff.left] at hp ⊢
    rcases hp with hp | ⟨r, hr, hne, he⟩
    case inl => exact .inl <| matchesResetMask_prefix hq hp
    -- The leaf is above `q`, or `q` leads to it.
    rcases List.prefix_or_prefix_of_prefix hr hq with hrq | hqr
    case inr => exact .inl <| matchesResetMask_prefix hqr <| matchesResetMask_of_ends he
    case inl =>
      by_cases h : r = q
      · exact .inl <| h ▸ matchesResetMask_of_ends he
      · exact .inr ⟨r, hrq, h, he⟩
  case refine_2 =>
    rw [matchesSelectMaskInner_iff.left]
    by_cases h : q = p
    · exact .inl <| h ▸ matchesResetMask_of_ends he
    · exact .inr ⟨q, hq, h, he⟩

section SubMask

theorem matchesResetMask_subMaskKey :
    matchesResetMask (k :: p) m ↔ ∃ c, m.subMaskKey k = some c ∧ matchesResetMask p c := by
  rw [matchesResetMask_cons, subMaskKey, child?_any, child?_key]
  cases m.any <;> cases m.fieldParts.get? k <;> simp
  case some.some a c =>
    rw [matchesResetMask_iadd, matchesResetMask_congr nodes_copy, or_comm]

theorem matchesResetMask_append : matchesResetMask (p ++ q) m ↔ ∃ c, m.subMask p = some c ∧ matchesResetMask q c := by
  induction p generalizing m
  case nil => simp [subMask]
  case cons k p ih =>
    simp only [List.cons_append, matchesResetMask_subMaskKey, ih, subMask, Option.bind_eq_some_iff]
    tauto

def NoWildcards (m : Mask κ) : Prop :=
  ∀ q ∈ m.nodes, .any ∉ q

namespace NoWildcards

theorem any_eq (h : m.NoWildcards) : m.any = none := by
  by_contra hn
  obtain ⟨a, ha⟩ := Option.ne_none_iff_exists'.mp hn
  exact h [.any] (singleton_mem_nodes.mpr ⟨a, ha⟩) (by simp)

theorem child {c : Mask κ} (h : m.NoWildcards) (hc : m.child? (.key k) = some c) : c.NoWildcards := by
  intro q hq hany
  exact h (.key k :: q) (cons_mem_nodes.mpr ⟨c, hc, hq⟩) (by simp [hany])

theorem subMaskKey_eq (h : m.NoWildcards) : m.subMaskKey k = m.child? (.key k) := by
  rw [subMaskKey, h.any_eq, child?_key]
  cases m.fieldParts.get? k <;> rfl

theorem endsResetMask_append (h : m.NoWildcards) :
    endsResetMask (p ++ q) m ↔ ∃ c, m.subMask p = some c ∧ endsResetMask q c := by
  induction p generalizing m
  case nil => simp [subMask]
  case cons k p ih =>
    rw [List.cons_append, endsResetMask_cons, child?_any, h.any_eq, subMask, h.subMaskKey_eq]
    cases hc : m.child? (.key k)
    case none => simp
    case some c => simp [ih (h.child hc)]

end NoWildcards

theorem subMaskKey_single {c : Mask κ} : (mk none <| (∅ : Dict κ (Mask κ)).set k c).subMaskKey k = some c := by
  simp [subMaskKey]

theorem subMask_attach (hp : p ≠ []) : (attach p m).subMask p = some m := by
  induction p
  case nil => contradiction
  case cons k p ih =>
    rw [attach, subMask, subMaskKey_single, Option.bind_some]
    cases p
    case nil => rfl
    case cons => exact ih (by simp)

theorem toMask_eq_attach : toMask p = attach p ∅ := by
  induction p
  case nil => rfl
  case cons k p ih =>
    rw [toMask, attach, ih]
    cases p <;> rfl

structure SubMaskLaws (p q : List κ) (m : Mask κ) : Prop where
  reset : matchesResetMask (p ++ q) m ↔ ∃ c, m.subMask p = some c ∧ matchesResetMask q c
  final : m.NoWildcards →
    (endsResetMask (p ++ q) m ↔ ∃ c, m.subMask p = some c ∧ endsResetMask q c)
  attached : ∃ c, (attach p m).subMask p = some c ∧ c == m
  spine : toMask p == attach p ∅

-- They hold for all paths that have a key. A mask that is attached to the empty path is lost.
theorem subMaskLaws_iff (p q : List κ) (m : Mask κ) : SubMaskLaws p q m ↔ p ≠ [] ∨ m == ∅ := by
  have hrefl (c : Mask κ) : c == c := beq_iff_nodes.mpr rfl
  constructor
  · intro h
    by_cases hp : p = []
    case neg => exact .inl hp
    case pos =>
      obtain ⟨c, hc, hm⟩ := h.attached
      subst hp
      cases hc
      exact .inr <| beq_iff_nodes.mpr (beq_iff_nodes.mp hm).symm
  · intro h
    refine ⟨matchesResetMask_append, fun hm => hm.endsResetMask_append, ?_, ?_⟩
    case refine_2 =>
      rw [toMask_eq_attach]
      exact hrefl _
    case refine_1 =>
      by_cases hp : p = []
      case neg => exact ⟨m, subMask_attach hp, hrefl m⟩
      case pos =>
        subst hp
        refine ⟨∅, rfl, beq_iff_nodes.mpr ?_⟩
        exact (beq_iff_nodes.mp <| h.resolve_left (by simp)).symm

def maskA : Mask FieldKey :=
  toMask [.ofChars ['a']]

theorem subMaskLaws_emptyPath : ¬∃ c, (attach [] maskA).subMask [] = some c ∧ c == maskA := by
  rintro ⟨c, hc, he⟩
  cases hc
  have hn := beq_iff_nodes.mp he
  rw [attach, nodes_empty, Set.ext_iff] at hn
  have ha : [Step.key (Text.ofChars ['a'])] ∈ maskA.nodes :=
    singleton_mem_nodes.mpr ⟨∅, by simp [maskA, toMask]⟩
  exact List.cons_ne_nil _ _ ((hn _).mpr ha)

end SubMask

end Mask
