import PysdkModel.Protos.Theorems.Content

namespace Protos.Node

variable {μ : Type} {c : MessageClass} {combine : μ → μ → μ} {L : Set Key} {a b : Node μ} {k : Key} {f : Field}

structure Consistent (c : MessageClass) (n : Node μ) : Prop where
  selected : ∀ {o number}, n.oneofs o = some number →
    ∃ f, c.field? number = some f ∧ f.isSingular ∧ f.oneof = some o
  absent : ∀ {k f o}, c.member? k = some f → f.isSingular → f.oneof = some o →
    n.oneofs o ≠ some f.number → n.members k = .absent
  declared : ∀ {k}, c.member? k = none → n.members k = .absent

theorem members_mergeOn_of_cleared (hf : c.member? k = some f) (h : Cleared L b f) :
    (mergeOn c combine L a b).members k = .absent := by
  simp only [mergeOn, hf, Option.elim_some]
  exact if_pos h

theorem members_mergeOn_of_mem (hf : c.member? k = some f) (h : ¬Cleared L b f) (hL : k ∈ L) :
    (mergeOn c combine L a b).members k = (a.members k).merge combine f (b.members k) := by
  simp only [mergeOn, hf, Option.elim_some]
  rw [if_neg h, if_pos hL]

theorem members_mergeOn_of_not_mem (hf : c.member? k = some f) (h : ¬Cleared L b f) (hL : k ∉ L) :
    (mergeOn c combine L a b).members k = a.members k := by
  simp only [mergeOn, hf, Option.elim_some]
  rw [if_neg h, if_neg hL]

theorem members_mergeOn_of_none (hf : c.member? k = none) : (mergeOn c combine L a b).members k = .absent := by
  simp [mergeOn, hf]

theorem mergeOn_empty (ha : a.Consistent c) : mergeOn c combine ∅ a b = a := by
  ext1
  case members =>
    funext k
    cases hf : c.member? k
    case none => rw [members_mergeOn_of_none hf, ha.declared hf]
    case some f => exact members_mergeOn_of_not_mem hf (by simp [Cleared]) (Set.notMem_empty k)
  case oneofs => simp [mergeOn]
  all_goals rfl

theorem oneofs_mergeOn_of_mem {o : Text} {number : Nat} (h : b.oneofs o = some number)
    (hL : .field number ∈ L) : (mergeOn c combine L a b).oneofs o = some number := by
  rw [← h]
  exact if_pos ⟨number, h, hL⟩

theorem oneofs_mergeOn_of_not_mem {o : Text} (h : ∀ number, b.oneofs o = some number → .field number ∉ L) :
    (mergeOn c combine L a b).oneofs o = a.oneofs o :=
  if_neg fun ⟨number, hb, hL⟩ => h number hb hL

theorem members_mergeOn_congr {L' : Set Key} {k : Key} (hL : k ∈ L' ↔ k ∈ L)
    (hc : ∀ f, c.member? k = some f → (Cleared L' b f ↔ Cleared L b f)) :
    (mergeOn c combine L' a b).members k = (mergeOn c combine L a b).members k := by
  cases hf : c.member? k
  case none => rw [members_mergeOn_of_none hf, members_mergeOn_of_none hf]
  case some f =>
    by_cases h : Cleared L b f
    case pos => rw [members_mergeOn_of_cleared hf h, members_mergeOn_of_cleared hf ((hc f hf).mpr h)]
    have h' : ¬Cleared L' b f := fun h' => h <| (hc f hf).mp h'
    by_cases hk : k ∈ L
    · rw [members_mergeOn_of_mem hf h hk, members_mergeOn_of_mem hf h' (hL.mpr hk)]
    · rw [members_mergeOn_of_not_mem hf h hk, members_mergeOn_of_not_mem hf h' (mt hL.mp hk)]

section

variable (hk : ∀ o number, b.oneofs o = some number → k ≠ .field number)
include hk

theorem cleared_insert_iff {g : Field} : Cleared (insert k L) b g ↔ Cleared L b g := by
  refine and_congr_right fun _ => ⟨?_, fun ⟨k', h, hd⟩ => ⟨k', .inr h, hd⟩⟩
  rintro ⟨k', rfl | h, hd⟩
  · have ⟨o, number, _, hs, he, _⟩ := hd
    exact absurd he <| hk o number hs
  · exact ⟨k', h, hd⟩

theorem oneofs_mergeOn_insert : (mergeOn c combine (insert k L) a b).oneofs = (mergeOn c combine L a b).oneofs := by
  funext o
  by_cases h : ∃ number, b.oneofs o = some number ∧ .field number ∈ L
  case pos =>
    have ⟨number, hs, hL⟩ := h
    rw [oneofs_mergeOn_of_mem hs hL, oneofs_mergeOn_of_mem hs (.inr hL)]
  rw [oneofs_mergeOn_of_not_mem fun number hs hL => h ⟨number, hs, hL⟩,
    oneofs_mergeOn_of_not_mem fun number hs hL => ?_]
  rcases hL with hL | hL
  · exact hk o number hs hL.symm
  · exact h ⟨number, hs, hL⟩

theorem mergeOn_insert : mergeOn c combine (insert k L) a b =
    (mergeOn c combine L a b).update k ((mergeOn c combine (insert k L) a b).members k) := by
  ext1
  case members =>
    funext k'
    rw [members_update]
    split
    case isTrue he => rw [he]
    case isFalse he =>
      exact members_mergeOn_congr ⟨fun h => h.resolve_left he, .inr⟩ fun _ _ => cleared_insert_iff hk
  case oneofs => exact oneofs_mergeOn_insert hk
  all_goals rfl

theorem mergeOn_insert_of_neutral (hf : c.member? k = some f) (hL : k ∉ L)
    (hn : (a.members k).merge combine f (b.members k) = a.members k) :
    mergeOn c combine (insert k L) a b = mergeOn c combine L a b := by
  rw [mergeOn_insert hk]
  have hm : (mergeOn c combine (insert k L) a b).members k = (mergeOn c combine L a b).members k := by
    by_cases h : Cleared L b f
    · rw [members_mergeOn_of_cleared hf h, members_mergeOn_of_cleared hf ((cleared_insert_iff hk).mpr h)]
    · rw [members_mergeOn_of_not_mem hf h hL,
        members_mergeOn_of_mem hf (mt (cleared_insert_iff hk).mp h) (.inl rfl), hn]
  rw [hm]
  exact Node.ext rfl (Function.update_eq_self ..) rfl rfl

end

theorem not_cleared_of_container (hs : ¬f.isSingular) : ¬Cleared L b f :=
  fun h => hs h.left

theorem mergeOn_insert_container (hb : b.Consistent c) (hf : c.member? k = some f)
    (hs : ¬f.isSingular) : mergeOn c combine (insert k L) a b =
      (mergeOn c combine L a b).update k ((a.members k).merge combine f (b.members k)) := by
  have hk o number (h : b.oneofs o = some number) : k ≠ .field number := by
    rintro rfl
    have ⟨g, hg, hg', _⟩ := hb.selected h
    cases hg.symm.trans hf
    exact hs hg'
  rw [mergeOn_insert hk, members_mergeOn_of_mem hf (not_cleared_of_container hs) (.inl rfl)]

theorem not_cleared_of_selected (hsel : ∀ o, f.oneof = some o → b.oneofs o = some f.number) : ¬Cleared L b f := by
  rintro ⟨_, k', _, o, number, ho, hs, _, hn⟩
  cases (hsel o ho).symm.trans hs
  exact hn rfl

theorem Consistent.key_of_selected (hb : b.Consistent c) (hf : c.member? k = some f) {o : Text}
    {number : Nat} (hs : b.oneofs o = some number) (hk : k = .field number) :
    f.oneof = some o ∧ f.number = number ∧ f.isSingular := by
  subst hk
  have ⟨g, hg, hg', ho⟩ := hb.selected hs
  cases hg.symm.trans hf
  exact ⟨ho, MessageClass.number_of_field? hg, hg'⟩

section

variable (hb : b.Consistent c) (hf : c.member? k = some f)
  (hsel : ∀ o, f.oneof = some o → b.oneofs o = some f.number)
include hb hf hsel

theorem cleared_insert_of_selected {g : Field} : Cleared (insert k L) b g ↔
    Cleared L b g ∨ (g.isSingular ∧ ∃ o, f.oneof = some o ∧ g.oneof = some o ∧ f.number ≠ g.number) := by
  constructor
  · rintro ⟨hg, k', rfl | hL, hd⟩
    · have ⟨o, number, ho, hs, hk, hn⟩ := hd
      have ⟨ho', hn', _⟩ := hb.key_of_selected hf hs hk
      exact .inr ⟨hg, o, ho', ho, hn' ▸ hn⟩
    · exact .inl ⟨hg, k', hL, hd⟩
  · rintro (⟨hg, k', hL, hd⟩ | ⟨hg, o, ho, ho', hn⟩)
    · exact ⟨hg, k', .inr hL, hd⟩
    · exact ⟨hg, k, .inl rfl, o, f.number, ho', hsel o ho, MessageClass.key_of_oneof hf ho, hn⟩

omit hb in
theorem oneofs_mergeOn_of_selected (hL : k ∉ L) {o : Text} (ho : f.oneof = some o) :
    (mergeOn c combine L a b).oneofs o = a.oneofs o := by
  refine oneofs_mergeOn_of_not_mem fun number hs => ?_
  cases (hsel o ho).symm.trans hs
  rw [MessageClass.key_of_oneof hf ho] at hL
  exact hL

theorem oneofs_mergeOn_insert_of_selected :
    (mergeOn c combine (insert k L) a b).oneofs = ((mergeOn c combine L a b).select f).oneofs := by
  funext o
  by_cases ho : f.oneof = some o
  case pos =>
    rw [oneofs_mergeOn_of_mem (hsel o ho) (.inl (MessageClass.key_of_oneof hf ho).symm)]
    exact (if_pos ho).symm
  refine Eq.trans ?_ (if_neg ho).symm
  by_cases h : ∃ number, b.oneofs o = some number ∧ .field number ∈ L
  case pos =>
    have ⟨number, hs, hL⟩ := h
    rw [oneofs_mergeOn_of_mem hs hL, oneofs_mergeOn_of_mem hs (.inr hL)]
  rw [oneofs_mergeOn_of_not_mem fun number hs hL => h ⟨number, hs, hL⟩,
    oneofs_mergeOn_of_not_mem fun number hs hL => ?_]
  rcases hL with hk | hL
  · exact ho (hb.key_of_selected hf hs hk.symm).left
  · exact h ⟨number, hs, hL⟩

omit hf in
theorem members_mergeOn_of_deselected (ha : a.Consistent c) {k' : Key} {g : Field}
    (hg : c.member? k' = some g) (hgs : g.isSingular) {o : Text} (ho : f.oneof = some o)
    (hgo : g.oneof = some o) (hn : f.number ≠ g.number) (hna : a.oneofs o ≠ some g.number) :
    (mergeOn c combine L a b).members k' = .absent := by
  by_cases h : Cleared L b g
  case pos => exact members_mergeOn_of_cleared hg h
  have ha' := ha.absent hg hgs hgo hna
  have hb' := hb.absent hg hgs hgo (by simpa [hsel o ho] using hn)
  by_cases hL : k' ∈ L
  · rw [members_mergeOn_of_mem hg h hL, ha', hb', Observation.merge]
  · rw [members_mergeOn_of_not_mem hg h hL, ha']

theorem mergeOn_insert_singular (ha : a.Consistent c) (hL : k ∉ L) :
    mergeOn c combine (insert k L) a b =
      ((mergeOn c combine L a b).select f).update k ((a.members k).merge combine f (b.members k)) := by
  ext1
  case oneofs => exact oneofs_mergeOn_insert_of_selected hb hf hsel
  case members =>
    funext k'
    rw [members_update]
    split
    case isTrue he =>
      rw [he, members_mergeOn_of_mem hf (not_cleared_of_selected hsel) (.inl rfl)]
    case isFalse he =>
      by_cases hd : Deselects (mergeOn c combine L a b).oneofs f k'
      · rw [members_select_of_deselects hd]
        have ⟨o, number, ho, hs, hk, hn⟩ := hd
        rw [oneofs_mergeOn_of_selected hf hsel hL ho] at hs
        have ⟨g, hg, hgs, hgo⟩ := ha.selected hs
        have hg' : c.member? k' = some g := hk ▸ hg
        have hn' : f.number ≠ g.number := by rw [MessageClass.number_of_field? hg]; exact hn.symm
        exact members_mergeOn_of_cleared hg' <|
          (cleared_insert_of_selected hb hf hsel).mpr <| .inr ⟨hgs, o, ho, hgo, hn'⟩
      · rw [members_select_of_not_deselects hd]
        by_cases h : ∃ g, c.member? k' = some g ∧ g.isSingular ∧
          ∃ o, f.oneof = some o ∧ g.oneof = some o ∧ f.number ≠ g.number
        · have ⟨g, hg, hgs, o, ho, hgo, hn⟩ := h
          have hna : a.oneofs o ≠ some g.number := by
            intro hs
            rw [← oneofs_mergeOn_of_selected hf hsel hL ho] at hs
            exact hd ⟨o, g.number, ho, hs, MessageClass.key_of_oneof hg hgo, hn.symm⟩
          rw [members_mergeOn_of_deselected hb hsel ha hg hgs ho hgo hn hna,
            members_mergeOn_of_deselected hb hsel ha hg hgs ho hgo hn hna]
        · refine members_mergeOn_congr ⟨fun h => h.resolve_left he, .inr⟩ fun g hg => ?_
          rw [cleared_insert_of_selected hb hf hsel]
          exact or_iff_left fun ⟨hgs, ho⟩ => h ⟨g, hg, hgs, ho⟩
  all_goals rfl

end

theorem mergeOn_eq_univ (hb : b.Consistent c) (hL : ∀ k f, c.member? k = some f → k ∈ L) :
    mergeOn c combine L a b = mergeOn c combine Set.univ a b := by
  have hsel {o number} (hs : b.oneofs o = some number) : .field number ∈ L :=
    have ⟨g, hg, _⟩ := hb.selected hs
    hL (.field number) g hg
  have hc {f} : Cleared L b f ↔ Cleared Set.univ b f := by
    refine and_congr_right fun _ => exists_congr fun k => and_congr_left fun hd => ?_
    have ⟨_, _, _, hs, hk, _⟩ := hd
    exact iff_of_true (hk ▸ hsel hs) trivial
  ext1
  case members =>
    funext k
    cases hf : c.member? k
    case none => rw [members_mergeOn_of_none hf, members_mergeOn_of_none hf]
    case some f => exact members_mergeOn_congr (iff_of_true (hL k f hf) trivial) fun _ _ => hc
  case oneofs =>
    funext o
    cases hs : b.oneofs o
    case none => rw [oneofs_mergeOn_of_not_mem (by simp [hs]), oneofs_mergeOn_of_not_mem (by simp [hs])]
    case some => rw [oneofs_mergeOn_of_mem hs (hsel hs), oneofs_mergeOn_of_mem hs (Set.mem_univ _)]
  all_goals rfl

end Protos.Node

namespace Protos.Message

variable {S : Schema} {m : Message} {μ : Type} {observe : Message → μ}

theorem Local.consistent (hm : m.Local S) : (m.node observe S).Consistent (S m.cls) where
  selected := by
    intro o number h
    have ⟨g, hg, ho, hn, hr⟩ := hm.selects o number h
    exact ⟨g, hg, by simp [Field.isSingular, hn, hr], ho⟩
  absent := by
    intro k f o hf hs ho hn
    have hk := MessageClass.key_of_oneof hf ho
    subst hk
    have hp : m.present f.key = false := by
      by_contra hp
      exact hn <| hm.oneof.mpr ⟨f, hf, ho, by simpa [Field.key] using hp⟩
    simp only [Field.isSingular, Bool.and_eq_true, Option.isNone_iff_eq_none, Bool.not_eq_true'] at hs
    simp [node, hf, observation, hs, Field.hasPresence_of_oneof ho, hp]
  declared := by
    intro k h
    simp [node, h]

end Protos.Message
