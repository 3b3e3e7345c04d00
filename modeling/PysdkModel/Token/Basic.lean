-- `Token` of aio/token/token.py.

namespace Aio

-- The expiration is a time in seconds. A token that is read from a file has whole seconds, and only its comparison
-- with the time matters.
structure Token where
  token : String
  expiration : Option Nat
  deriving DecidableEq

def Token.isExpired (now : Nat) (t : Token) : Bool :=
  match t.expiration with
  | none => false
  | some e => e ≤ now

theorem Token.isExpired_mono {now now' : Nat} {t : Token} (hn : now ≤ now') (h : t.isExpired now) :
    t.isExpired now' := by
  unfold isExpired at *
  split at h
  · cases h
  · simp only [decide_eq_true_eq] at h ⊢
    omega

theorem Token.filter_later {now d : Nat} {t : Option Token} :
    (t.filter fun t => !t.isExpired now).filter (fun t => !t.isExpired (now + d)) =
      t.filter fun t => !t.isExpired (now + d) := by
  cases t
  case none => rfl
  case some t =>
    cases hx : t.isExpired now
    case false => simp [Option.filter, hx]
    case true => simp [Option.filter, hx, Token.isExpired_mono (Nat.le_add_right _ d) hx]

end Aio
