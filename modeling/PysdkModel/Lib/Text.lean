import Mathlib.Data.List.Basic
import Mathlib.Tactic.IntervalCases

-- A code point of a Python string. Unlike a `Char` it may be a surrogate.
abbrev CodePoint := Fin 0x110000

abbrev Text := List CodePoint

namespace List

variable {α : Type} [DecidableEq α] {a b : α} {part as : List α} {parts : List (List α)}

theorem nmem_of_mem_splitOn (h : part ∈ as.splitOn a) : a ∉ part := by
  rw [splitOn] at h
  induction as generalizing part
  case nil =>
    rw [splitOnP_nil, mem_singleton] at h
    simp [h]
  case cons b as ih =>
    rw [splitOnP_cons_eq_if_modifyHead] at h
    split at h
    case isTrue =>
      obtain rfl | h := mem_cons.mp h
      · exact not_mem_nil
      · exact ih h
    case isFalse hb =>
      obtain ⟨first, rest, hs⟩ := exists_cons_of_ne_nil <| splitOnP_ne_nil (· == a) as
      rw [hs] at ih
      rw [hs, modifyHead_cons] at h
      obtain rfl | h := mem_cons.mp h
      · have hab : a ≠ b := fun hab => hb (beq_iff_eq.mpr hab.symm)
        exact not_mem_cons_of_ne_of_not_mem hab <| ih mem_cons_self
      · exact ih <| mem_cons_of_mem _ h

omit [DecidableEq α] in
theorem mem_intercalate_of_mem (hp : part ∈ parts) (hb : b ∈ part) : b ∈ [a].intercalate parts := by
  induction parts
  case nil => cases hp
  case cons first rest ih =>
    obtain rfl | hp := mem_cons.mp hp
    · cases rest
      case nil => simpa [intercalate] using hb
      case cons => simp [intercalate_cons_cons, hb]
    · rw [intercalate_cons_of_ne_nil (ne_nil_of_mem hp)]
      exact mem_append_right _ <| ih hp

omit [DecidableEq α] in
theorem eq_or_mem_of_mem_intercalate (h : b ∈ [a].intercalate parts) : b = a ∨ ∃ part ∈ parts, b ∈ part := by
  induction parts
  case nil => simp [intercalate] at h
  case cons first rest ih =>
    by_cases hr : rest = []
    case pos =>
      subst hr
      exact .inr ⟨first, mem_cons_self, by simpa [intercalate] using h⟩
    rw [intercalate_cons_of_ne_nil hr, append_assoc, singleton_append, mem_append, mem_cons] at h
    obtain h | rfl | h := h
    · exact .inr ⟨first, mem_cons_self, h⟩
    · exact .inl rfl
    · obtain rfl | ⟨part, hp, hb⟩ := ih h
      · exact .inl rfl
      · exact .inr ⟨part, mem_cons_of_mem _ hp, hb⟩

theorem mem_of_mem_splitOn (hp : part ∈ as.splitOn a) (hb : b ∈ part) : b ∈ as := by
  have h : [a].intercalate (as.splitOn a) = as := intercalate_splitOn a
  exact h ▸ mem_intercalate_of_mem hp hb

end List

namespace CodePoint

-- Named, so that literals refer to it.
instance instNeZero : NeZero 0x110000 :=
  ⟨by decide⟩

def ofNat (n : Nat) : CodePoint :=
  Fin.ofNat _ n

def ofChar (c : Char) : CodePoint :=
  ofNat c.toNat

def IsHighSurrogate (n : Nat) : Prop :=
  0xD800 ≤ n ∧ n ≤ 0xDBFF

def IsLowSurrogate (n : Nat) : Prop :=
  0xDC00 ≤ n ∧ n ≤ 0xDFFF

instance : DecidablePred IsHighSurrogate :=
  fun _ => inferInstanceAs (Decidable (_ ∧ _))

instance : DecidablePred IsLowSurrogate :=
  fun _ => inferInstanceAs (Decidable (_ ∧ _))

def IsScalar (c : CodePoint) : Prop :=
  ¬(0xD800 ≤ c.val ∧ c.val ≤ 0xDFFF)

instance : DecidablePred IsScalar :=
  fun _ => inferInstanceAs (Decidable (¬(_ ∧ _)))

theorem val_ofNat {n : Nat} (h : n < 0x110000) : (ofNat n).val = n :=
  Nat.mod_eq_of_lt h

theorem ofNat_val (c : CodePoint) : ofNat c.val = c :=
  Fin.ext <| val_ofNat c.isLt

end CodePoint

namespace Text

def ofChars (cs : List Char) : Text :=
  cs.map CodePoint.ofChar

def ofString (s : String) : Text :=
  ofChars s.toList

def IsScalar (t : Text) : Prop :=
  ∀ c ∈ t, c.IsScalar

instance : DecidablePred IsScalar :=
  fun t => inferInstanceAs (Decidable (∀ c ∈ t, c.IsScalar))

end Text

-- The string part of Python's `json` module: `dumps` with its default `ensure_ascii` and `loads`.
namespace Json

open CodePoint

def quote : CodePoint := 0x22

def backslash : CodePoint := 0x5C

def letterU : CodePoint := 0x75

def hexDigit (n : Nat) : CodePoint :=
  ofNat <| if n < 10 then 0x30 + n else 0x61 + (n - 10)

def hex4 (n : Nat) : Text :=
  [hexDigit (n / 0x1000 % 16), hexDigit (n / 0x100 % 16), hexDigit (n / 0x10 % 16), hexDigit (n % 16)]

def escapeUnit (n : Nat) : Text :=
  backslash :: letterU :: hex4 n

def escapeLetter? (n : Nat) : Option CodePoint :=
  match n with
  | 0x22 => some 0x22
  | 0x5C => some 0x5C
  | 0x08 => some 0x62
  | 0x0C => some 0x66
  | 0x0A => some 0x6E
  | 0x0D => some 0x72
  | 0x09 => some 0x74
  | _ => none

def escapeAscii (c : CodePoint) : Text :=
  match escapeLetter? c.val with
  | some l => [backslash, l]
  | none =>
    if 0x20 ≤ c.val ∧ c.val ≤ 0x7E then [c]
    else if c.val < 0x10000 then escapeUnit c.val
    else
      escapeUnit (0xD800 + (c.val - 0x10000) / 0x400) ++ escapeUnit (0xDC00 + (c.val - 0x10000) % 0x400)

def dumps (t : Text) : Text :=
  quote :: t.flatMap escapeAscii ++ [quote]

def hexVal? (c : CodePoint) : Option Nat :=
  if 0x30 ≤ c.val ∧ c.val ≤ 0x39 then some (c.val - 0x30)
  else if 0x61 ≤ c.val ∧ c.val ≤ 0x66 then some (c.val - 0x61 + 10)
  else if 0x41 ≤ c.val ∧ c.val ≤ 0x46 then some (c.val - 0x41 + 10)
  else none

def hex4? (a b c d : CodePoint) : Option Nat := do
  let a ← hexVal? a
  let b ← hexVal? b
  let c ← hexVal? c
  let d ← hexVal? d
  return a * 0x1000 + b * 0x100 + c * 0x10 + d

def unescapeLetter? (c : CodePoint) : Option CodePoint :=
  match c.val with
  | 0x22 => some 0x22
  | 0x5C => some 0x5C
  | 0x2F => some 0x2F
  | 0x62 => some 0x08
  | 0x66 => some 0x0C
  | 0x6E => some 0x0A
  | 0x72 => some 0x0D
  | 0x74 => some 0x09
  | _ => none

-- Scans a string literal after its opening quote. The result is the string and what follows the
-- closing quote. Escaped surrogates are joined when they form a pair and kept as they are otherwise.
def scanString : Text → Option (Text × Text)
  | [] => none
  | c :: rest =>
    if c = quote then some ([], rest)
    else if c = backslash then
      match rest with
      | [] => none
      | e :: rest =>
        if e = letterU then
          match rest with
          | x₁ :: x₂ :: x₃ :: x₄ :: rest =>
            match hex4? x₁ x₂ x₃ x₄ with
            | none => none
            | some u =>
              match rest with
              | b :: e' :: y₁ :: y₂ :: y₃ :: y₄ :: rest' =>
                if IsHighSurrogate u ∧ b = backslash ∧ e' = letterU then
                  match hex4? y₁ y₂ y₃ y₄ with
                  | none => none
                  | some u' =>
                    if IsLowSurrogate u' then
                      (scanString rest').map fun (t, r) =>
                        (ofNat (0x10000 + (u - 0xD800) * 0x400 + (u' - 0xDC00)) :: t, r)
                    else
                      (scanString (b :: e' :: y₁ :: y₂ :: y₃ :: y₄ :: rest')).map fun (t, r) =>
                        (ofNat u :: t, r)
                else
                  (scanString (b :: e' :: y₁ :: y₂ :: y₃ :: y₄ :: rest')).map fun (t, r) =>
                    (ofNat u :: t, r)
              | rest => (scanString rest).map fun (t, r) => (ofNat u :: t, r)
          | _ => none
        else
          match unescapeLetter? e with
          | some l => (scanString rest).map fun (t, r) => (l :: t, r)
          | none => none
    else if c.val < 0x20 then none
    else (scanString rest).map fun (t, r) => (c :: t, r)

def loads : Text → Option Text
  | [] => none
  | c :: rest =>
    if c = quote then
      match scanString rest with
      | some (t, rest) => if rest.all (·.val ∈ [0x20, 0x09, 0x0A, 0x0D]) then some t else none
      | none => none
    else none

theorem hexVal?_hexDigit {n : Nat} (h : n < 16) : hexVal? (hexDigit n) = some n := by
  interval_cases n <;> rfl

theorem hex4?_hex4 {n : Nat} (h : n < 0x10000) :
    hex4? (hexDigit (n / 0x1000 % 16)) (hexDigit (n / 0x100 % 16)) (hexDigit (n / 0x10 % 16))
      (hexDigit (n % 16)) = some n := by
  have hd (k : Nat) := hexVal?_hexDigit <| Nat.mod_lt k (show 16 > 0 by decide)
  simp only [hex4?, hd, Option.bind_eq_bind, Option.bind_some, pure, Option.some.injEq]
  omega

theorem escapeLetter?_eq_some {n : Nat} {l : CodePoint} (h : escapeLetter? n = some l) :
    l ≠ letterU ∧ unescapeLetter? l = some (ofNat n) := by
  simp only [escapeLetter?] at h
  split at h <;> cases h <;> decide

theorem escapeLetter?_eq_none {c : CodePoint} (h : escapeLetter? c.val = none) : c ≠ quote ∧ c ≠ backslash := by
  constructor <;> rintro rfl <;> simp [escapeLetter?, quote, backslash] at h

section ScanString

variable {c : CodePoint} {rest : Text}

theorem scanString_letter {l : CodePoint} (h : escapeLetter? c.val = some l) :
    scanString (backslash :: l :: rest) = (scanString rest).map fun (t, r) => (c :: t, r) := by
  have ⟨hu, hl⟩ := escapeLetter?_eq_some h
  have hq : backslash ≠ quote := by decide
  rw [scanString.eq_def]
  simp only [hq, ↓reduceIte, hu, hl, ofNat_val]

theorem scanString_unit {u : Nat} (hu : u < 0x10000) (hs : ¬IsHighSurrogate u) :
    scanString (escapeUnit u ++ rest) = (scanString rest).map fun (t, r) => (ofNat u :: t, r) := by
  have hq : backslash ≠ quote := by decide
  rw [escapeUnit, hex4, List.cons_append, scanString.eq_def]
  simp only [hq, ↓reduceIte, List.cons_append, List.nil_append, hex4?_hex4 hu, hs, false_and]
  split <;> rfl

theorem scanString_pair {hi lo : Nat} (hh : IsHighSurrogate hi) (hl : IsLowSurrogate lo) :
    scanString (escapeUnit hi ++ (escapeUnit lo ++ rest)) =
      (scanString rest).map fun (t, r) =>
        (ofNat (0x10000 + (hi - 0xD800) * 0x400 + (lo - 0xDC00)) :: t, r) := by
  have hq : backslash ≠ quote := by decide
  have hh' : hi < 0x10000 := by have := hh.right; omega
  have hl' : lo < 0x10000 := by have := hl.right; omega
  rw [escapeUnit, hex4, List.cons_append, scanString.eq_def]
  simp only [hq, ↓reduceIte, escapeUnit, hex4, List.cons_append, List.nil_append, hex4?_hex4 hh',
    hex4?_hex4 hl', hh, hl, and_self]

theorem scanString_escapeAscii (hc : c.IsScalar) :
    scanString (escapeAscii c ++ rest) = (scanString rest).map fun (t, r) => (c :: t, r) := by
  simp only [CodePoint.IsScalar] at hc
  rw [escapeAscii]
  split
  case h_1 l hl => exact scanString_letter hl
  case h_2 hn =>
    have ⟨hq, hb⟩ := escapeLetter?_eq_none hn
    split_ifs with hp hs
    · have hp : ¬c.val < 0x20 := by omega
      rw [List.singleton_append, scanString.eq_def]
      simp only [hq, hb, hp, ↓reduceIte]
    · have hh : ¬IsHighSurrogate c.val := by simp only [IsHighSurrogate]; omega
      rw [scanString_unit hs hh, ofNat_val]
    · have hlt := c.isLt
      have hh : IsHighSurrogate (0xD800 + (c.val - 0x10000) / 0x400) := by
        simp only [IsHighSurrogate]; omega
      have hl : IsLowSurrogate (0xDC00 + (c.val - 0x10000) % 0x400) := by
        simp only [IsLowSurrogate]; omega
      have he : 0x10000 + (0xD800 + (c.val - 0x10000) / 0x400 - 0xD800) * 0x400 +
          (0xDC00 + (c.val - 0x10000) % 0x400 - 0xDC00) = c.val := by omega
      rw [List.append_assoc, scanString_pair hh hl, he, ofNat_val]

-- Surrogates are excluded because an escaped pair of them is read back as one code point.
theorem scanString_flatMap {t : Text} (ht : t.IsScalar) :
    scanString (t.flatMap escapeAscii ++ quote :: rest) = some (t, rest) := by
  induction t
  case nil => rw [List.flatMap_nil, List.nil_append, scanString.eq_def]; simp
  case cons c t ih =>
    have ⟨hc, ht⟩ := List.forall_mem_cons.mp ht
    rw [List.flatMap_cons, List.append_assoc, scanString_escapeAscii hc, ih ht]
    rfl

end ScanString

end Json

namespace Text

def toChars? (t : Text) : Option (List Char) :=
  t.mapM fun c => if h : c.val.isValidChar then some (Char.ofNatAux c.val h) else none

def encodeUtf8 (t : Text) : Option (List UInt8) :=
  t.toChars?.map (·.flatMap String.utf8EncodeChar)

def decodeUtf8 (b : List UInt8) : Option Text :=
  b.toByteArray.utf8Decode?.map fun cs => ofChars cs.toList

theorem ofChars_of_toChars? {t : Text} {cs : List Char} (h : t.toChars? = some cs) : ofChars cs = t := by
  induction t generalizing cs
  case nil => cases h; rfl
  case cons c t ih =>
    rw [toChars?, List.mapM_cons] at h
    obtain ⟨d, hd, h⟩ := Option.bind_eq_some_iff.mp h
    obtain ⟨ds, hds, h⟩ := Option.bind_eq_some_iff.mp h
    cases h
    by_cases hc : c.val.isValidChar
    case neg =>
      rw [dif_neg hc] at hd
      cases hd
    case pos =>
      rw [dif_pos hc] at hd
      cases hd
      rw [ofChars, List.map_cons, ← ofChars, ih hds]
      exact congrArg (· :: t) (CodePoint.ofNat_val c)

theorem decodeUtf8_of_encodeUtf8 {t : Text} {b : List UInt8} (h : t.encodeUtf8 = some b) : decodeUtf8 b = some t := by
  have ⟨cs, hcs, hb⟩ := Option.map_eq_some_iff.mp h
  have he : b.toByteArray = cs.utf8Encode := by rw [← hb, List.utf8Encode]
  rw [decodeUtf8, he, List.utf8Decode?_utf8Encode, Option.map_some, List.toList_toArray,
    ofChars_of_toChars? hcs]

theorem toChars?_isSome_iff {t : Text} : t.toChars?.isSome ↔ t.IsScalar := by
  induction t
  case nil => exact iff_of_true rfl (by simp [IsScalar])
  case cons c t ih =>
    have hc : c.val.isValidChar ↔ c.IsScalar := by
      have := c.isLt
      simp only [Nat.isValidChar, CodePoint.IsScalar]
      omega
    have ht : IsScalar (c :: t) ↔ c.IsScalar ∧ IsScalar t := by simp [IsScalar]
    rw [ht, ← ih, ← hc, toChars?, List.mapM_cons, ← toChars?]
    by_cases h : c.val.isValidChar
    · rw [dif_pos h]
      cases toChars? t
      case none => exact iff_of_false Bool.false_ne_true fun h => Bool.false_ne_true h.2
      case some => exact iff_of_true rfl ⟨h, rfl⟩
    · rw [dif_neg h]
      exact iff_of_false Bool.false_ne_true fun hc => h hc.1

theorem encodeUtf8_isSome_iff {t : Text} : t.encodeUtf8.isSome ↔ t.IsScalar := by
  rw [encodeUtf8, Option.isSome_map, toChars?_isSome_iff]

end Text
