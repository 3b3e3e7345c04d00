import Mathlib.Algebra.Order.Ring.Nat
import PysdkModel.Lib.Reader

-- Numbers as sequences of groups of seven bits, the lowest group first. Every byte but the last has its
-- highest bit set.

namespace Varint

-- The limits of a reader: the number of bytes, the largest byte at the last of these places, and the
-- errors for what exceeds them.
structure Format (ε : Type) where
  groups : Nat
  last : Nat
  truncated : ε
  tooLarge : ε
  tooLong : ε

def encode (n : Nat) : List UInt8 :=
  if n > 0x7F then .ofNat (n % 0x80 + 0x80) :: encode (n / 0x80) else [.ofNat n]

def decodeGroups {ε : Type} (fmt : Format ε) : Nat → Reader ε Nat
  | 0 => Reader.fail fmt.tooLong
  | groups + 1 => do
    let b ← Reader.byte fmt.truncated
    if groups = 0 ∧ b.toNat > fmt.last then
      Reader.fail fmt.tooLarge
    else if b.toNat < 0x80 then
      return b.toNat
    else
      let n ← decodeGroups fmt groups
      return b.toNat % 0x80 + 0x80 * n

def decode {ε : Type} (fmt : Format ε) : Reader ε Nat :=
  decodeGroups fmt fmt.groups

variable {ε : Type} {fmt : Format ε} {n : Nat}

theorem encode_ne_nil : encode n ≠ [] := by
  rw [encode]
  split <;> simp

variable {k : Nat}

theorem length_encode_le (h : n < 0x80 ^ k * 0x80) : (encode n).length ≤ k + 1 := by
  induction k generalizing n
  case zero =>
    rw [encode, if_neg (by omega)]
    simp
  case succ k ih =>
    rw [encode]
    split
    case isFalse => simp
    have hd : n / 0x80 < 0x80 ^ k * 0x80 := Nat.div_lt_of_lt_mul <| by rw [← mul_assoc, ← pow_succ']; exact h
    have := ih hd
    rw [List.length_cons]
    omega

theorem reads_single (hn : n ≤ 0x7F) (hl : n < 0x80 ^ k * (fmt.last + 1)) :
    (decodeGroups fmt (k + 1)).Reads [.ofNat n] n := by
  have hb : (UInt8.ofNat n).toNat = n := by simp; omega
  refine Reader.Reads.bind (y := []) Reader.Reads.byte ?_
  rw [hb, if_neg ?_, if_pos (by omega)]
  · exact Reader.Reads.pure
  · rintro ⟨rfl, hl'⟩
    omega

theorem reads_decodeGroups (h : n < 0x80 ^ k * 0x80) (hl : n < 0x80 ^ k * (fmt.last + 1)) :
    (decodeGroups fmt (k + 1)).Reads (encode n) n := by
  induction k generalizing n
  case zero =>
    rw [encode, if_neg (by omega)]
    exact reads_single (by omega) hl
  case succ k ih =>
    rw [encode]
    split
    case isFalse => exact reads_single (by omega) hl
    have hb : (UInt8.ofNat (n % 0x80 + 0x80)).toNat = n % 0x80 + 0x80 := by simp; omega
    have hd {c} (hc : n < 0x80 ^ (k + 1) * c) : n / 0x80 < 0x80 ^ k * c :=
      Nat.div_lt_of_lt_mul <| by rw [← mul_assoc, ← pow_succ']; exact hc
    refine Reader.Reads.bind (x := [_]) Reader.Reads.byte ?_
    rw [hb, if_neg (by omega), if_neg (by omega)]
    refine (ih (hd h) (hd hl)).bind_nil ?_
    have hn : (n % 0x80 + 0x80) % 0x80 + 0x80 * (n / 0x80) = n := by omega
    rw [hn]
    exact Reader.Reads.pure

theorem raises_decodeGroups {E : ε → Prop} (ht : E fmt.truncated) (hl : E fmt.tooLarge)
    (hg : E fmt.tooLong) : (decodeGroups fmt k).Raises E := by
  induction k
  case zero => exact .fail hg
  case succ k ih =>
    refine (Reader.Raises.byte ht).bind fun b => ?_
    refine .ite (Reader.Raises.fail hl) <| .ite .pure ?_
    exact ih.bind fun _ => .pure

theorem streaming_decodeGroups : (decodeGroups fmt k).Streaming := by
  induction k
  case zero => exact .fail
  case succ k ih =>
    refine Reader.Streaming.byte.bind fun b => ?_
    refine .ite .fail <| .ite .pure ?_
    exact ih.bind fun _ => .pure

theorem progress_decodeGroups : (decodeGroups fmt k).Progress := by
  cases k
  case zero => intro _ _ _ h; cases h
  case succ k =>
    refine Reader.Progress.byte.bind fun b => ?_
    refine .ite .fail <| .ite .pure ?_
    exact streaming_decodeGroups.bind fun _ => .pure

inductive Terminated : List UInt8 → Prop
  | last {b : UInt8} : b.toNat < 0x80 → Terminated [b]
  | more {b : UInt8} {x : List UInt8} : ¬b.toNat < 0x80 → Terminated x → Terminated (b :: x)

def value : List UInt8 → Nat
  | [] => 0
  | b :: x => b.toNat % 0x80 + 0x80 * value x

structure Fits (fmt : Format ε) (k : Nat) (x : List UInt8) : Prop where
  terminated : Terminated x
  length_le : x.length ≤ k
  last_le : x.length = k → ∀ b ∈ x.getLast?, b.toNat ≤ fmt.last

variable {x : List UInt8}

theorem terminated_cons_iff {b : UInt8} : Terminated (b :: x) ↔ if b.toNat < 0x80 then x = [] else Terminated x := by
  constructor
  · rintro (hb | ⟨hb, hx⟩)
    · simp [hb]
    · simpa [hb] using hx
  · split
    case isTrue hb => rintro rfl; exact .last hb
    case isFalse hb => exact .more hb

theorem Terminated.ne_nil (h : Terminated x) : x ≠ [] := by
  cases h <;> simp

theorem getLast?_cons {b : UInt8} (h : Terminated x) : (b :: x).getLast? = x.getLast? := by
  obtain ⟨c, x, rfl⟩ := List.exists_cons_of_ne_nil h.ne_nil
  exact List.getLast?_cons_cons

theorem fits_cons_iff {b : UInt8} : Fits fmt (k + 1) (b :: x) ↔
      ¬(k = 0 ∧ b.toNat > fmt.last) ∧ if b.toNat < 0x80 then x = [] else Fits fmt k x := by
  constructor
  · rintro ⟨ht, hl, hlast⟩
    constructor
    case left =>
      rintro ⟨rfl, hb⟩
      obtain rfl : x = [] := by simpa using hl
      have := hlast rfl b rfl
      omega
    case right =>
      rw [terminated_cons_iff] at ht
      split
      case isTrue hb => simpa [hb] using ht
      case isFalse hb =>
        rw [if_neg hb] at ht
        refine ⟨ht, by simpa using hl, fun hk c hc => hlast (by simp [hk]) c ?_⟩
        rwa [getLast?_cons ht]
  · rintro ⟨hn, hx⟩
    split at hx
    case isTrue hb =>
      subst hx
      refine ⟨.last hb, by simp, fun hk c hc => ?_⟩
      cases hc
      have hk : k = 0 := by simpa using hk.symm
      exact Nat.le_of_not_gt fun hgt => hn ⟨hk, hgt⟩
    case isFalse hb =>
      refine ⟨.more hb hx.terminated, by simpa using hx.length_le, fun hk c hc => ?_⟩
      rw [getLast?_cons hx.terminated] at hc
      exact hx.last_le (by simpa using hk) c hc

theorem decodeGroups_eq_ok_iff {n : Nat} : decodeGroups fmt k x = .ok (n, []) ↔ Fits fmt k x ∧ n = value x := by
  induction k generalizing x n
  case zero =>
    constructor
    · intro h; cases h
    · intro h
      exact absurd (List.length_eq_zero_iff.mp (Nat.le_zero.mp h.left.length_le)) h.left.terminated.ne_nil
  case succ k ih =>
    cases x
    case nil =>
      constructor
      · intro h; cases h
      · intro h; exact absurd rfl h.left.terminated.ne_nil
    case cons b x =>
      have hstep : decodeGroups fmt (k + 1) (b :: x) =
          (if k = 0 ∧ b.toNat > fmt.last then Reader.fail fmt.tooLarge
            else if b.toNat < 0x80 then pure b.toNat
            else decodeGroups fmt k >>= fun n => pure (b.toNat % 0x80 + 0x80 * n)) x := rfl
      rw [hstep, fits_cons_iff, value]
      by_cases hlast : k = 0 ∧ b.toNat > fmt.last
      case pos => simp [hlast, Reader.fail]
      by_cases hb : b.toNat < 0x80
      · simp only [hlast, hb, ↓reduceIte, Reader.pure_eq, Except.ok.injEq, Prod.mk.injEq, not_false_eq_true,
          true_and, Nat.mod_eq_of_lt hb]
        constructor
        · rintro ⟨rfl, rfl⟩; exact ⟨rfl, by simp [value]⟩
        · rintro ⟨rfl, rfl⟩; exact ⟨by simp [value], rfl⟩
      · simp only [hlast, hb, ↓reduceIte, Reader.bind_eq_ok_iff, Reader.pure_eq, Except.ok.injEq,
          Prod.mk.injEq, not_false_eq_true, true_and]
        constructor
        · rintro ⟨v, rest, hv, rfl, rfl⟩
          obtain ⟨hx, rfl⟩ := ih.mp hv
          exact ⟨hx, rfl⟩
        · rintro ⟨hx, rfl⟩
          exact ⟨value x, [], ih.mpr ⟨hx, rfl⟩, rfl, rfl⟩

theorem Terminated.le_value (h : Terminated x) {b : UInt8} (hb : b ∈ x.getLast?) :
    b.toNat * 0x80 ^ (x.length - 1) ≤ value x := by
  induction h
  case last c hc =>
    cases hb
    simp [value]
    omega
  case more c x hc hx ih =>
    rw [getLast?_cons hx] at hb
    have := ih hb
    have hpos := List.length_pos_iff.mpr hx.ne_nil
    obtain ⟨l, hl⟩ : ∃ l, x.length = l + 1 := ⟨x.length - 1, by omega⟩
    simp only [hl, Nat.add_sub_cancel, List.length_cons, value, pow_succ] at this ⊢
    rw [← mul_assoc]
    omega

end Varint

namespace LittleEndian

def encode : Nat → Nat → List UInt8
  | 0, _ => []
  | w + 1, n => .ofNat (n % 0x100) :: encode w (n / 0x100)

def decode : List UInt8 → Nat
  | [] => 0
  | b :: i => b.toNat + 0x100 * decode i

theorem decode_lt {i : List UInt8} : decode i < 0x100 ^ i.length := by
  induction i
  case nil => simp [decode]
  case cons b i ih =>
    have hb := b.toNat_lt
    rw [decode, List.length_cons, pow_succ]
    omega

theorem length_encode {w n : Nat} : (encode w n).length = w := by
  induction w generalizing n
  case zero => rfl
  case succ w ih => rw [encode, List.length_cons, ih]

theorem decode_encode {w n : Nat} (h : n < 0x100 ^ w) : decode (encode w n) = n := by
  induction w generalizing n
  case zero => simp [encode, decode] at h ⊢; omega
  case succ w ih =>
    have hb : (UInt8.ofNat (n % 0x100)).toNat = n % 0x100 := by simp
    rw [encode, decode, ih (Nat.div_lt_of_lt_mul <| by rw [← pow_succ']; exact h), hb]
    omega

end LittleEndian
