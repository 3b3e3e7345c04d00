import Mathlib.Data.Option.Basic

-- Machines that are driven by events: `step s a` is the state that the event `a` leads to, or `none`
-- where `a` cannot happen in `s`. Nondeterminism (the scheduler, the network, the clock) is the choice
-- of the events.

namespace Machine

variable {σ α : Type*} {step : σ → α → Option σ} {ok ok' : σ → α → Prop} {s t u : σ}

def run (step : σ → α → Option σ) : σ → List α → Option σ
  | s, [] => some s
  | s, a :: as => (step s a).bind (run step · as)

-- A run from `s` to `t` in which every event meets the condition `ok` in the state it happens in.
inductive Reaches (step : σ → α → Option σ) (ok : σ → α → Prop) (s : σ) : σ → Prop
  | refl : Reaches step ok s s
  | tail {t u : σ} {a : α} : Reaches step ok s t → ok t a → step t a = some u → Reaches step ok s u

def restrict (step : σ → α → Option σ) (ok : σ → α → Prop) [∀ s a, Decidable (ok s a)] (s : σ) (a : α) : Option σ :=
  if ok s a then step s a else none

def anyEvent (_ : σ) (_ : α) : Prop := True

theorem guard_iff {p : Prop} [Decidable p] : (if p then some s else none) = some t ↔ p ∧ s = t := by
  rw [Option.ite_none_right_eq_some, Option.some.injEq]

namespace Reaches

theorem single {a : α} (h : ok s a) (e : step s a = some t) : Reaches step ok s t :=
  .tail .refl h e

theorem trans (r₁ : Reaches step ok s t) (r₂ : Reaches step ok t u) : Reaches step ok s u := by
  induction r₂ with
  | refl => exact r₁
  | tail _ h e ih => exact .tail ih h e

theorem mono (h : ∀ {s a}, ok s a → ok' s a) (r : Reaches step ok s t) : Reaches step ok' s t := by
  induction r with
  | refl => exact .refl
  | tail _ ha e ih => exact .tail ih (h ha) e

theorem invariant {I : σ → Prop} (keep : ∀ {s a t}, I s → ok s a → step s a = some t → I t)
    (r : Reaches step ok s t) (hs : I s) : I t := by
  induction r with
  | refl => exact hs
  | tail _ ha e ih => exact keep ih ha e

theorem invariant_within {I J : σ → Prop} (keepI : ∀ {s a t}, I s → ok s a → step s a = some t → I t)
    (keepJ : ∀ {s a t}, I s → J s → ok s a → step s a = some t → J t)
    (r : Reaches step ok s t) (hI : I s) (hJ : J s) : J t :=
  (r.invariant (I := fun s => I s ∧ J s)
    (fun h ha e => ⟨keepI h.1 ha e, keepJ h.1 h.2 ha e⟩) ⟨hI, hJ⟩).2

theorem of_run {as : List α} (h : run step s as = some t) : Reaches step anyEvent s t := by
  induction as generalizing s with
  | nil =>
    cases h
    exact .refl
  | cons a as ih =>
    obtain ⟨u, e, h⟩ := Option.bind_eq_some_iff.mp h
    exact (single trivial e).trans (ih h)

theorem of_restricted_run [∀ s a, Decidable (ok s a)] {as : List α}
    (h : run (restrict step ok) s as = some t) : Reaches step ok s t := by
  induction as generalizing s with
  | nil =>
    cases h
    exact .refl
  | cons a as ih =>
    obtain ⟨u, e, h⟩ := Option.bind_eq_some_iff.mp h
    simp only [restrict, Option.ite_none_right_eq_some] at e
    exact (single e.1 e.2).trans (ih h)

-- The steps are matched by runs of another machine, up to the relation `R`.
theorem simulates {τ β : Type*} {step' : τ → β → Option τ} {ok' : τ → β → Prop} {R : σ → τ → Prop} {u : τ}
    (keep : ∀ {s a t u}, R s u → ok s a → step s a = some t → ∃ v, Reaches step' ok' u v ∧ R t v)
    (r : Reaches step ok s t) (hs : R s u) : ∃ v, Reaches step' ok' u v ∧ R t v := by
  induction r with
  | refl => exact ⟨u, .refl, hs⟩
  | tail _ ha e ih =>
    obtain ⟨v, hv, hR⟩ := ih
    obtain ⟨w, hw, hR⟩ := keep hR ha e
    exact ⟨w, hv.trans hw, hR⟩

end Reaches

end Machine
