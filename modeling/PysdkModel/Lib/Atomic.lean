import Mathlib.Order.Defs.Unbundled

-- Computations that change a state and may raise. What they have changed before they raise stays changed.

namespace EStateM

variable {ε σ α β : Type} {R : σ → σ → Prop} {x : EStateM ε σ α} {f : α → EStateM ε σ β}

def Atomic (R : σ → σ → Prop) (x : EStateM ε σ α) : Prop :=
  ∀ ⦃s e t⦄, x s = .error e t → R s t

def Total (x : EStateM ε σ α) : Prop :=
  ∀ s, ∃ a t, x s = .ok a t

theorem Total.atomic (h : Total x) : Atomic R x := by
  intro s e t hx
  obtain ⟨a, u, ho⟩ := h s
  cases ho.symm.trans hx

theorem Atomic.throw [Std.Refl R] (e : ε) : Atomic R (throw e : EStateM ε σ α) := by
  rintro s _ _ ⟨⟩
  exact Std.Refl.refl s

theorem Atomic.get_bind {f : σ → EStateM ε σ β} (h : ∀ s, Atomic R (f s)) : Atomic R (get >>= f) :=
  fun s _ _ hx => h s hx

theorem Atomic.ofExcept_bind [Std.Refl R] (y : Except ε α) (h : ∀ a, Atomic R (f a)) :
    Atomic R (MonadExcept.ofExcept y >>= f) := by
  cases y with
  | ok a => exact h a
  | error e => exact Atomic.throw e

theorem Atomic.bind_total (h : Atomic R x) (hf : ∀ a, Total (f a)) : Atomic R (x >>= f) := by
  intro s e t hx
  simp only [bind, EStateM.bind] at hx
  split at hx
  case h_1 a u hu =>
    obtain ⟨b, v, hv⟩ := hf a u
    cases hv.symm.trans hx
  case h_2 e' u hu =>
    cases hx
    exact h hu

end EStateM
