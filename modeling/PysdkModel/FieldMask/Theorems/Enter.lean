import PysdkModel.FieldMask.Parser

namespace Level

variable {h : MaskHeap FieldKey} {s : Step FieldKey}

structure Entered (h : MaskHeap FieldKey) (s : Step FieldKey) (done : List Nat) (l : Loop) : Prop where
  grown : h.child?.Extends l.1.child? h.length { a | a ∈ done } s
  noMask : l.2.1 = none → l.1 = h
  mask : ∀ m, l.2.1 = some m → m = h.length ∧ l.1.length = h.length + 1 ∧ ∃ a ∈ done, l.1.child? a s = some m
  active : ∀ c, c ∈ l.2.2 ↔ ∃ a ∈ done, l.1.child? a s = some c

namespace Entered

variable {done : List Nat} {l : Loop} {a : Nat}

theorem nil : Entered h s [] (h, none, []) where
  grown v t := by simp
  noMask _ := rfl
  mask := by simp
  active := by simp

theorem found {c : Nat} (he : Entered h s done l) (hc : l.1.child? a s = some c) :
    Entered h s (done ++ [a]) (l.1, l.2.1, l.2.2 ++ [c]) where
  noMask := he.noMask
  active d := by simp [he.active, hc, or_and_right, exists_or, eq_comm]
  mask m hm := by
    have ⟨h₁, h₂, a, ha, h₃⟩ := he.mask m hm
    exact ⟨h₁, h₂, a, by simp [ha], h₃⟩
  grown v t := by
    have hg := he.grown v t
    by_cases hv : v ∈ done
    case pos => simpa [hv] using hg
    have hs := (he.grown v s).right (by simp [hv])
    simp only [Set.mem_ofPred_eq, hv, false_and, not_false_eq_true, forall_true_left] at hg
    simp only [Set.mem_ofPred_eq, List.mem_append, List.mem_singleton, hv, false_or]
    refine ⟨?_, fun _ => hg.right⟩
    rintro ⟨rfl, rfl, hn⟩
    simp [hs, hn] at hc

theorem missing {h' : MaskHeap FieldKey} {newActive : List Nat} (he : Entered h s done l) (hc : l.1.child? a s = none)
    (hh : ∀ v t, h'.child? v t = if v = a ∧ t = s then some h.length else l.1.child? v t)
    (hl : h'.length = h.length + 1) (ha : ∀ c, c ∈ newActive ↔ c = h.length ∨ c ∈ l.2.2) :
    Entered h s (done ++ [a]) (h', some h.length, newActive) where
  noMask := by simp
  mask m hm := by
    cases hm
    exact ⟨rfl, hl, a, by simp, by simp [hh]⟩
  active c := by
    simp only [ha, he.active, List.mem_append, List.mem_singleton, hh]
    constructor
    · rintro (rfl | ⟨b, hb, hc'⟩)
      · exact ⟨a, by simp⟩
      · refine ⟨b, .inl hb, ?_⟩
        rw [if_neg (by rintro ⟨rfl, -⟩; simp [hc] at hc'), hc']
    · rintro ⟨b, hb, hc'⟩
      split at hc'
      case isTrue => simp_all
      case isFalse hba => exact .inr ⟨b, hb.resolve_right fun hb => hba ⟨hb, trivial⟩, hc'⟩
  grown v t := by
    have hg := he.grown v t
    have hn : h.child? a s = none := by
      by_contra hn
      have ⟨c, hn⟩ := Option.ne_none_iff_exists'.mp hn
      simp [he.grown.mono hn] at hc
    simp only [hh, Set.mem_ofPred_eq, List.mem_append, List.mem_singleton]
    split
    case isTrue hv => simp [hv.left, hv.right, hn]
    case isFalse hv =>
      constructor
      · rintro ⟨hd | rfl, rfl, h₃⟩
        · exact hg.left ⟨hd, rfl, h₃⟩
        · simp at hv
      · intro hnot
        exact hg.right fun ⟨h₁, h₂, h₃⟩ => hnot ⟨.inl h₁, h₂, h₃⟩

theorem enterBody (he : Entered h s done l) (ha : a < h.length) : Entered h s (done ++ [a]) (enterBody s l a) := by
  obtain ⟨h', mask, newActive⟩ := l
  simp only [Level.enterBody]
  split
  case h_1 c hc => exact he.found hc
  case h_2 hc =>
    split
    case h_1 m =>
      have ⟨hm, hl, b, hb, hbm⟩ := he.mask m rfl
      subst hm
      change h'.length = _ at hl
      refine he.missing hc (fun v t => MaskHeap.child?_setChild (by omega)) ?_ fun c => ?_
      · rw [MaskHeap.length_setChild, hl]
      · have := (he.active h.length).mpr ⟨b, hb, hbm⟩
        exact ⟨.inr, fun hc => hc.elim (· ▸ this) id⟩
    case h_2 =>
      have hh : h' = h := he.noMask rfl
      subst hh
      refine he.missing hc (fun v t => ?_) ?_ fun c => ?_
      · rw [MaskHeap.child?_setChild (by rw [MaskHeap.length_alloc]; omega), MaskHeap.child?_alloc]
      · rw [MaskHeap.length_setChild, MaskHeap.length_alloc]
      · simp [or_comm]

theorem foldl {active : List Nat} (he : Entered h s done l) (ha : ∀ a ∈ active, a < h.length) :
    Entered h s (done ++ active) (active.foldl (Level.enterBody s) l) := by
  induction active generalizing done l
  case nil => simpa
  case cons a active ih =>
    have := ih (he.enterBody <| ha a (by simp)) fun a hm => ha a (by simp [hm])
    simpa using this

end Entered

theorem enter_spec {l l' : Level} {h' : MaskHeap FieldKey} (he : l.enter h s = (l', h'))
    (hn : h.child?.Ascending h.length) (ha : ∀ a ∈ l.active, a < h.length) :
    h.child?.Extends h'.child? h.length { a | a ∈ l.active } s ∧ h'.child?.Ascending h'.length ∧ h.length ≤ h'.length ∧
    ∃ active, l' = { l with active } ∧ ∀ c, c ∈ active ↔ ∃ a ∈ l.active, h'.child? a s = some c := by
  have hs := Entered.nil.foldl (s := s) ha
  simp only [enter, List.nil_append] at he hs
  cases he
  refine ⟨hs.grown, ?_⟩
  cases hm : (l.active.foldl (enterBody s) (h, none, [])).2.1
  case none =>
    have heq := hs.noMask hm
    exact ⟨by rwa [heq], by rw [heq], _, rfl, hs.active⟩
  case some m =>
    have ⟨_, hl, _⟩ := hs.mask m hm
    exact ⟨hl ▸ hs.grown.ascending hn ha, by omega, _, rfl, hs.active⟩

end Level
