import Mathlib.Data.List.Nodup
import Mathlib.Data.Set.Insert

-- Lists that are related element by element, and computations that may fail on all elements of a list.

namespace List

variable {α β : Type}

theorem Forall₂.exists_left {R : α → β → Prop} {as : List α} {bs : List β} {b : β}
    (h : Forall₂ R as bs) (hb : b ∈ bs) : ∃ a ∈ as, R a b := by
  induction h
  case nil => cases hb
  case cons a b' as bs hab _ ih =>
    rcases List.mem_cons.mp hb with rfl | hb
    · exact ⟨a, List.mem_cons_self, hab⟩
    · have ⟨a', ha', h⟩ := ih hb
      exact ⟨a', List.mem_cons_of_mem a ha', h⟩

theorem Forall₂.exists_right {R : α → β → Prop} {as : List α} {bs : List β} {a : α}
    (h : Forall₂ R as bs) (ha : a ∈ as) : ∃ b ∈ bs, R a b :=
  h.flip.exists_left ha

theorem forall₂_of_map_eq {β : Nat → Type} {g : (n : Nat) → α → β n} {P Q : α → Prop}
    {l l' : List α} (h : ∀ n, l.map (g n) = l'.map (g n)) (hl : ∀ a ∈ l, P a) (hl' : ∀ a ∈ l', Q a) :
    l.Forall₂ (fun a a' => (∀ n, g n a = g n a') ∧ P a ∧ Q a') l' := by
  induction l generalizing l'
  case nil =>
    cases map_eq_nil_iff.mp (h 0).symm
    exact .nil
  case cons a l ih =>
    cases l'
    case nil => cases h 0
    case cons a' l' =>
      have ⟨ha, hl⟩ := forall_mem_cons.mp hl
      have ⟨ha', hl'⟩ := forall_mem_cons.mp hl'
      have h n := cons_eq_cons.mp (h n)
      exact .cons ⟨fun n => (h n).left, ha, ha'⟩ (ih (fun n => (h n).right) hl hl')

-- A loop that visits each element once and does not fail. The invariant says which elements have been visited.
theorem foldlM_visits {σ : Type} {step : σ → α → Option σ} {P : Set α → σ → Prop}
    (h : ∀ {L s a}, a ∉ L → P L s → ∃ t, step s a = some t ∧ P (insert a L) t) {L : Set α} {s : σ} {as : List α}
    (hs : P L s) (hn : as.Nodup) (hL : ∀ a ∈ as, a ∉ L) :
    ∃ t, as.foldlM step s = some t ∧ P (L ∪ { a | a ∈ as }) t := by
  induction as generalizing s L
  case nil => exact ⟨s, rfl, by simpa using hs⟩
  case cons a as ih =>
    obtain ⟨ha, hn⟩ := nodup_cons.mp hn
    obtain ⟨haL, hL⟩ := forall_mem_cons.mp hL
    obtain ⟨t, ht, hPt⟩ := h haL hs
    have hL' : ∀ b ∈ as, b ∉ insert a L := by
      intro b hb hm
      obtain rfl | hm := Set.mem_insert_iff.mp hm
      · exact ha hb
      · exact hL b hb hm
    obtain ⟨u, hu, hPu⟩ := ih hPt hn hL'
    have hset : insert a L ∪ { b | b ∈ as } = L ∪ { b | b ∈ a :: as } := by
      ext b
      simp only [Set.mem_union, Set.mem_insert_iff, Set.mem_ofPred_eq, mem_cons]
      tauto
    refine ⟨u, ?_, hset ▸ hPu⟩
    rw [foldlM_cons, ht]
    exact hu

end List

namespace Except

variable {ε α β : Type}

theorem bind_eq_ok_iff {x : Except ε α} {f : α → Except ε β} {b : β} :
    (x >>= f) = .ok b ↔ ∃ a, x = .ok a ∧ f a = .ok b := by
  cases x
  case error => exact ⟨nofun, nofun⟩
  case ok a =>
    refine ⟨fun h => ⟨a, rfl, h⟩, ?_⟩
    rintro ⟨_, ⟨⟩, h⟩
    exact h

theorem mapM_eq_ok_iff {f : α → Except ε β} {as : List α} {bs : List β} :
    as.mapM f = .ok bs ↔ List.Forall₂ (fun a b => f a = .ok b) as bs := by
  induction as generalizing bs
  case nil =>
    rw [List.mapM_nil, List.forall₂_nil_left_iff]
    exact ⟨fun h => by cases h; rfl, fun h => h ▸ rfl⟩
  case cons a as ih =>
    simp only [List.mapM_cons, bind_eq_ok_iff, List.forall₂_cons_left_iff, ih]
    constructor
    · rintro ⟨b, hb, bs, hbs, ⟨⟩⟩
      exact ⟨b, bs, hb, hbs, rfl⟩
    · rintro ⟨b, bs, hb, hbs, rfl⟩
      exact ⟨b, hb, bs, hbs, rfl⟩

theorem forall₂_of_mapM {γ : Type} {R : α → γ → Prop} {P : γ → β → Prop} {f : α → Except ε β}
    (hP : ∀ a c b, R a c → f a = .ok b → P c b) {as : List α} {cs : List γ} {bs : List β}
    (hR : List.Forall₂ R as cs) (h : as.mapM f = .ok bs) : List.Forall₂ P cs bs := by
  rw [mapM_eq_ok_iff] at h
  induction hR generalizing bs
  case nil =>
    rw [List.forall₂_nil_left_iff.mp h]
    exact .nil
  case cons a c as cs hac _ ih =>
    obtain ⟨b, bs, hb, hbs, rfl⟩ := List.forall₂_cons_left_iff.mp h
    exact .cons (hP a c b hac hb) (ih hbs)

theorem mapM_isOk {f : α → Except ε β} {P : β → Prop} {as : List α} (h : ∀ a ∈ as, ∃ b, f a = .ok b ∧ P b) :
    ∃ bs, as.mapM f = .ok bs ∧ ∀ b ∈ bs, P b := by
  simp only [mapM_eq_ok_iff]
  induction as
  case nil => exact ⟨[], .nil, by simp⟩
  case cons a as ih =>
    obtain ⟨ha, has⟩ := List.forall_mem_cons.mp h
    obtain ⟨b, hb, hP⟩ := ha
    obtain ⟨bs, hbs, hPs⟩ := ih has
    exact ⟨b :: bs, .cons hb hbs, List.forall_mem_cons.mpr ⟨hP, hPs⟩⟩

theorem mapM_ok_of_mem {f g : α → Except ε β} {as : List α} {bs : List β}
    (h : ∀ a ∈ as, ∀ b, f a = .ok b → g a = .ok b) (hf : as.mapM f = .ok bs) : as.mapM g = .ok bs := by
  rw [mapM_eq_ok_iff] at hf ⊢
  induction hf
  case nil => exact .nil
  case cons a b as bs hb _ ih =>
    have ⟨ha, has⟩ := List.forall_mem_cons.mp h
    exact .cons (ha b hb) (ih has)

theorem mapM_flatten_eq_nil_iff {f : α → Except ε (List β)} {as : List α} :
    (∃ bs, as.mapM f = .ok bs ∧ bs.flatten = []) ↔ ∀ a ∈ as, f a = .ok [] := by
  simp only [mapM_eq_ok_iff]
  constructor
  · rintro ⟨bs, h, hbs⟩ a ha
    have ⟨b, hb, hab⟩ := h.exists_right ha
    rwa [List.flatten_eq_nil_iff.mp hbs b hb] at hab
  · intro h
    refine ⟨as.map fun _ => [], ?_, by simp⟩
    exact List.forall₂_map_right_iff.mpr <| List.forall₂_same.mpr h

theorem bind_ok {x x' : Except ε α} {g g' : α → Except ε β} {b : β} (hx : ∀ a, x = .ok a → x' = .ok a)
    (hg : ∀ a, g a = .ok b → g' a = .ok b) (h : (x >>= g) = .ok b) : (x' >>= g') = .ok b := by
  have ⟨a, ha, hb⟩ := bind_eq_ok_iff.mp h
  exact bind_eq_ok_iff.mpr ⟨a, hx a ha, hg a hb⟩

end Except
