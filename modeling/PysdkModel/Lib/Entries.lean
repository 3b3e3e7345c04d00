import Mathlib.Algebra.GroupWithZero.Nat
import Mathlib.Data.List.Nodup
import Mathlib.Data.List.Perm.Subperm

-- Lists as tables: the entries are known by their positions, they are updated in place and added at the end.

namespace List

variable {α : Type*} {l : List α} {a b c : α} {i k : Nat} {p : α → Bool}

theorem getElem?_set_cases (h : (l.set i b)[k]? = some c) : k = i ∧ c = b ∨ k ≠ i ∧ l[k]? = some c := by
  rw [getElem?_set] at h
  split at h
  case isTrue e =>
    obtain ⟨_, h⟩ := Option.ite_none_right_eq_some.mp h
    exact .inl ⟨e.symm, (Option.some.inj h).symm⟩
  case isFalse e => exact .inr ⟨Ne.symm e, h⟩

theorem sum_map_set (f : α → Nat) (h : l[i]? = some a) : ((l.set i b).map f).sum + f a = (l.map f).sum + f b := by
  induction l generalizing i with
  | nil => simp at h
  | cons c l ih =>
    cases i with
    | zero =>
      obtain rfl : c = a := by simpa using h
      simp only [set_cons_zero, map_cons, sum_cons]
      omega
    | succ i =>
      have := ih (i := i) (by simpa using h)
      simp only [set_cons_succ, map_cons, sum_cons]
      omega

theorem getElem?_set_of_some (h : l[i]? = some a) : (l.set i b)[i]? = some b := by
  simp [(getElem?_eq_some_iff.mp h).1]

theorem set_of_getElem? (h : l[i]? = some a) : l.set i a = l := by
  obtain ⟨hi, rfl⟩ := getElem?_eq_some_iff.mp h
  exact set_getElem_self hi

theorem getElem?_modify_cases {f : α → α} (h : (l.modify i f)[k]? = some c) :
    ∃ a, l[k]? = some a ∧ (k = i ∧ c = f a ∨ k ≠ i ∧ c = a) := by
  rw [getElem?_modify, Option.map_eq_map, Option.map_eq_some_iff] at h
  obtain ⟨a, ha, rfl⟩ := h
  refine ⟨a, ha, ?_⟩
  split
  case isTrue e => exact .inl ⟨e.symm, rfl⟩
  case isFalse e => exact .inr ⟨Ne.symm e, rfl⟩

theorem getElem?_concat_cases (h : (l ++ [b])[k]? = some c) : l[k]? = some c ∨ k = l.length ∧ c = b := by
  rw [getElem?_append] at h
  split at h
  case isTrue => exact .inl h
  case isFalse hk =>
    obtain ⟨hlt, e⟩ := getElem?_eq_some_iff.mp h
    simp only [length_singleton] at hlt
    exact .inr ⟨by omega, by simpa using e.symm⟩

theorem lt_length_of_getElem? (h : l[i]? = some a) : i < l.length :=
  (getElem?_eq_some_iff.mp h).1

theorem getElem?_concat_of_some (h : l[i]? = some a) : (l ++ [b])[i]? = some a := by
  rwa [getElem?_append_left (lt_length_of_getElem? h)]

section Predicates

variable {P : α → Prop}

theorem forall_getElem?_set (hb : P b) (h : ∀ {k : Nat} {c}, l[k]? = some c → P c) (hc : (l.set i b)[k]? = some c) :
    P c := by
  rcases getElem?_set_cases hc with ⟨_, rfl⟩ | ⟨_, hc⟩
  · exact hb
  · exact h hc

theorem of_exists_getElem? (h : l[i]? = some a) (he : ∃ x, l[i]? = some x ∧ P x) : P a := by
  obtain ⟨x, hx, hp⟩ := he
  exact Option.some.inj (hx.symm.trans h) ▸ hp

theorem exists_getElem?_set (h : l[i]? = some a) (he : ∃ x, l[k]? = some x ∧ P x) (hb : k = i → P b) :
    ∃ x, (l.set i b)[k]? = some x ∧ P x := by
  by_cases hk : k = i
  · cases hk
    exact ⟨b, getElem?_set_of_some h, hb rfl⟩
  · obtain ⟨x, hx, hp⟩ := he
    exact ⟨x, (getElem?_set_ne (Ne.symm hk)).trans hx, hp⟩

theorem exists_mem_set {R : Prop} (h : l[i]? = some a) (hb : P a → P b ∨ R) (he : ∃ x ∈ l, P x) :
    (∃ x ∈ l.set i b, P x) ∨ R := by
  obtain ⟨x, hx, hp⟩ := he
  obtain ⟨k, hk⟩ := mem_iff_getElem?.mp hx
  by_cases hki : k = i
  · cases hki
    cases h.symm.trans hk
    exact (hb hp).imp_left fun hp => ⟨b, mem_of_getElem? (getElem?_set_of_some h), hp⟩
  · exact .inl ⟨x, mem_of_getElem? ((getElem?_set_ne (Ne.symm hki)).trans hk), hp⟩

theorem exists_getElem?_concat (he : ∃ x, l[k]? = some x ∧ P x) : ∃ x, (l ++ [b])[k]? = some x ∧ P x := by
  obtain ⟨x, hx, hp⟩ := he
  exact ⟨x, getElem?_concat_of_some hx, hp⟩

end Predicates

theorem countP_set_add (h : l[i]? = some a) :
    (l.set i b).countP p + (if p a then 1 else 0) = l.countP p + (if p b then 1 else 0) := by
  obtain ⟨hi, rfl⟩ := getElem?_eq_some_iff.mp h
  have hle : (if p l[i] then 1 else 0) ≤ l.countP p := by
    split
    case isTrue hp => exact countP_pos_iff.mpr ⟨_, getElem_mem hi, hp⟩
    case isFalse => exact Nat.zero_le _
  rw [countP_set hi]
  omega

theorem countP_le_length_of_positions {ids : List Nat}
    (h : ∀ {i : Nat} {a}, l[i]? = some a → p a → i ∈ ids) : l.countP p ≤ ids.length := by
  have hl : (l.zipIdx.filter (p ·.1)).length = l.countP p := by
    rw [← countP_eq_length_filter]
    exact (countP_map (p := p) (f := Prod.fst)).symm.trans (by rw [zipIdx_map_fst])
  have hn : ((l.zipIdx.filter (p ·.1)).map Prod.snd).Nodup :=
    (zipIdx_map_snd 0 l ▸ nodup_range' : (l.zipIdx.map Prod.snd).Nodup).sublist (filter_sublist.map _)
  have hs : (l.zipIdx.filter (p ·.1)).map Prod.snd ⊆ ids := by
    intro i hi
    obtain ⟨x, hx, rfl⟩ := mem_map.mp hi
    obtain ⟨hx, hp⟩ := mem_filter.mp hx
    exact h (mem_zipIdx_iff_getElem?.mp hx) hp
  simpa [hl] using (hn.subperm hs).length_le

end List
