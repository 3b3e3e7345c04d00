import PysdkModel.Protos.Theorems.Wire

namespace Protos

open Reader (Reads Streaming)

variable {d n k : Nat} {v : Nat} {w : WireType} {t x y : Bytes}

structure IsVarint (x : Bytes) (v : Nat) : Prop where
  terminated : Varint.Terminated x
  length_le : x.length ≤ 10
  value_eq : v = Varint.value x % 2 ^ 64

structure IsTag (x : Bytes) (n : Nat) (w : WireType) : Prop where
  terminated : Varint.Terminated x
  length_le : x.length ≤ 5
  value_eq : Varint.value x = n * 8 + w.number
  pos : 0 < n
  le : n ≤ maxFieldNumber

inductive IsPlain : WireType → Bytes → Prop
  | varint {v : Nat} {x : Bytes} : IsVarint x v → IsPlain .varint x
  | fixed64 {x : Bytes} : x.length = 8 → IsPlain .fixed64 x
  | lengthDelimited {x y : Bytes} : IsVarint x y.length → IsPlain .lengthDelimited (x ++ y)
  | fixed32 {x : Bytes} : x.length = 4 → IsPlain .fixed32 x

-- The fields of a group with the number `n`, followed by the end of the group. In the fields groups are
-- nested at most `d` times.
inductive IsGroup : Nat → Nat → Bytes → Prop
  | done {d n : Nat} {t : Bytes} : IsTag t n .endGroup → IsGroup d n t
  | plain {d n k : Nat} {w : WireType} {t x y : Bytes} :
    IsTag t k w → IsPlain w x → IsGroup d n y → IsGroup d n (t ++ (x ++ y))
  | nested {d n k : Nat} {t x y : Bytes} :
    IsTag t k .startGroup → IsGroup d k x → IsGroup (d + 1) n y → IsGroup (d + 1) n (t ++ (x ++ y))

inductive IsBody : Nat → Nat → WireType → Bytes → Prop
  | plain {d n : Nat} {w : WireType} {x : Bytes} : IsPlain w x → IsBody d n w x
  | group {d n : Nat} {x : Bytes} : IsGroup d n x → IsBody (d + 1) n .startGroup x

namespace BinaryReader

theorem reads_readVarint_iff : readVarint.Reads x v ↔ IsVarint x v := by
  rw [streaming_readVarint.reads_iff, readVarint, Reader.bind_eq_ok_iff]
  simp only [Varint.decode, Reader.pure_eq, Except.ok.injEq, Prod.mk.injEq]
  constructor
  · rintro ⟨a, rest, ha, rfl, rfl⟩
    obtain ⟨hx, rfl⟩ := Varint.decodeGroups_eq_ok_iff.mp ha
    exact ⟨hx.terminated, hx.length_le, rfl⟩
  · intro h
    refine ⟨Varint.value x, [], Varint.decodeGroups_eq_ok_iff.mpr ⟨⟨h.terminated, h.length_le, ?_⟩, rfl⟩,
      h.value_eq.symm, rfl⟩
    intro _ b _
    exact Nat.le_of_lt_succ b.toNat_lt

theorem number_of_ofNumber? {m : Nat} (h : WireType.ofNumber? m = some w) : m = w.number := by
  unfold WireType.ofNumber? at h
  split at h <;> cases h <;> rfl

theorem reads_readTag_iff : readTag.Reads x (n, w) ↔ IsTag x n w := by
  rw [streaming_readTag.reads_iff, readTag, Reader.bind_eq_ok_iff]
  simp only [Varint.decode]
  constructor
  · rintro ⟨a, rest, ha, h⟩
    split at h
    case isTrue => cases h
    case isFalse hr =>
      cases hw : WireType.ofNumber? (a % 8) <;> simp only [hw] at h <;> cases h
      obtain ⟨hx, rfl⟩ := Varint.decodeGroups_eq_ok_iff.mp ha
      have := number_of_ofNumber? hw
      exact ⟨hx.terminated, hx.length_le, by omega, by omega, by omega⟩
  · intro h
    have hw := WireType.number_lt (w := w)
    have hle := h.le
    have hval := h.value_eq
    have hlast : x.length = 5 → ∀ b ∈ x.getLast?, b.toNat ≤ 0x0F := by
      intro hl b hb
      have hv := h.terminated.le_value hb
      simp only [hl, hval, maxFieldNumber] at hv hle
      omega
    refine ⟨Varint.value x, [], Varint.decodeGroups_eq_ok_iff.mpr ⟨⟨h.terminated, h.length_le, hlast⟩, rfl⟩, ?_⟩
    have hdiv : Varint.value x / 8 = n := by omega
    have hmod : Varint.value x % 8 = w.number := by omega
    have hpos := h.pos
    rw [hdiv, hmod, WireType.ofNumber?_number, if_neg (by omega)]
    rfl

theorem reads_void_iff {α : Type} {p : BinaryReader α} (hp : p.Streaming) :
    (p >>= fun _ => pure ()).Reads x () ↔ ∃ a, p.Reads x a := by
  rw [(hp.bind fun _ => Streaming.pure).reads_iff, Reader.bind_eq_ok_iff]
  simp only [hp.reads_iff, Reader.pure_eq, Except.ok.injEq, Prod.mk.injEq, true_and]
  constructor
  · rintro ⟨a, rest, ha, rfl⟩; exact ⟨a, ha⟩
  · rintro ⟨a, ha⟩; exact ⟨a, [], ha, rfl⟩

theorem reads_readExact_iff : (readExact n).Reads x y ↔ x.length = n ∧ x = y := by
  rw [readExact, Streaming.exact.reads_iff, Reader.exact]
  split
  case isTrue h => simp; omega
  case isFalse h =>
    simp only [Except.ok.injEq, Prod.mk.injEq, List.drop_eq_nil_iff]
    constructor
    · rintro ⟨rfl, hl⟩; exact ⟨by omega, by rw [List.take_of_length_le hl]⟩
    · rintro ⟨rfl, rfl⟩; simp

theorem reads_skipExact_iff : (readExact n >>= fun _ => pure ()).Reads x () ↔ x.length = n := by
  rw [reads_void_iff (p := readExact n) Streaming.exact]
  simp [reads_readExact_iff]

theorem reads_readBytes_iff : readBytes.Reads x y ↔ ∃ z, x = z ++ y ∧ IsVarint z y.length := by
  rw [streaming_readBytes.reads_iff, readBytes, Reader.bind_eq_ok_iff]
  constructor
  · rintro ⟨v, rest, hv, hy⟩
    obtain ⟨z, rfl, hz⟩ := streaming_readVarint.eq_ok_iff.mp hv
    obtain ⟨hl, rfl⟩ := reads_readExact_iff.mp <| Streaming.exact.reads_iff.mpr hy
    exact ⟨z, rfl, hl ▸ reads_readVarint_iff.mp hz⟩
  · rintro ⟨z, rfl, hz⟩
    refine ⟨y.length, y, reads_readVarint_iff.mpr hz y, ?_⟩
    exact Streaming.exact.reads_iff.mp <| reads_readExact_iff.mpr ⟨rfl, rfl⟩

theorem reads_skipPlain_iff : (skipPlain w).Reads x () ↔ IsPlain w x := by
  cases w
  case varint =>
    rw [skipPlain, reads_void_iff streaming_readVarint]
    simp only [reads_readVarint_iff]
    constructor
    · rintro ⟨v, hv⟩; exact .varint hv
    · rintro ⟨hv⟩; exact ⟨_, hv⟩
  case fixed64 => exact reads_skipExact_iff.trans ⟨.fixed64, fun h => by cases h; assumption⟩
  case lengthDelimited =>
    rw [skipPlain, reads_void_iff streaming_readBytes]
    simp only [reads_readBytes_iff]
    constructor
    · rintro ⟨y, z, rfl, hz⟩; exact .lengthDelimited hz
    · intro h; cases h with | lengthDelimited hz => exact ⟨_, _, rfl, hz⟩
  case fixed32 => exact reads_skipExact_iff.trans ⟨.fixed32, fun h => by cases h; assumption⟩
  case startGroup =>
    constructor
    · intro h; cases h []
    · intro h; cases h
  case endGroup =>
    constructor
    · intro h; cases h []
    · intro h; cases h

section Groups

variable {depth g : Nat} {outer : List Nat} {i rest : Bytes}

theorem skipGroups_end (ht : IsTag t g .endGroup) :
    skipGroups depth (g :: outer) (t ++ i) = skipGroups depth outer i := by
  rw [skipGroups_cons, (reads_readTag_iff.mpr ht).bind_apply]
  simp

theorem skipGroups_start (ht : IsTag t k .startGroup) :
    skipGroups depth (g :: outer) (t ++ i) =
      if (g :: outer).length ≥ depth then .error .groupNesting else skipGroups depth (k :: g :: outer) i := by
  rw [skipGroups_cons, (reads_readTag_iff.mpr ht).bind_apply]
  dsimp only
  split <;> rfl

theorem skipGroups_plain (ht : IsTag t k w) (hx : IsPlain w x) :
    skipGroups depth (g :: outer) (t ++ (x ++ i)) = skipGroups depth (g :: outer) i := by
  have hr := reads_skipPlain_iff.mpr hx
  nth_rewrite 1 [skipGroups_cons]
  rw [(reads_readTag_iff.mpr ht).bind_apply]
  cases w
  case startGroup => cases hx
  case endGroup => cases hx
  all_goals exact hr.bind_apply

theorem skipGroups_of_isGroup (hy : IsGroup d g y) (hd : d + (outer.length + 1) ≤ depth) :
    skipGroups depth (g :: outer) (y ++ i) = skipGroups depth outer i := by
  induction hy generalizing outer i
  case done ht => exact skipGroups_end ht
  case plain ht hx _ ih =>
    rw [List.append_assoc, List.append_assoc, skipGroups_plain ht hx, ih hd]
  case nested ht _ _ ihx ihy =>
    rw [List.append_assoc, List.append_assoc, skipGroups_start ht, if_neg, ihx, ihy hd]
    · simp only [List.length_cons]; omega
    · simp only [List.length_cons]; omega

theorem eq_of_skipGroups_end (ht : IsTag t k .endGroup)
    (h : skipGroups depth (g :: outer) (t ++ i) = .ok ((), rest)) : k = g := by
  rw [skipGroups_cons, (reads_readTag_iff.mpr ht).bind_apply] at h
  by_contra hne
  simp only [ne_eq, hne, not_false_eq_true, ↓reduceIte] at h
  cases h

theorem isPlain_of_skipGroups (ht : IsTag t k w) (hs : w ≠ .startGroup) (he : w ≠ .endGroup)
    (h : skipGroups depth (g :: outer) (t ++ i) = .ok ((), rest)) :
    ∃ x i', i = x ++ i' ∧ IsPlain w x ∧ skipGroups depth (g :: outer) i' = .ok ((), rest) := by
  rw [skipGroups_cons, (reads_readTag_iff.mpr ht).bind_apply] at h
  have h : (skipPlain w >>= fun _ => skipGroups depth (g :: outer)) i = .ok ((), rest) := by
    cases w
    case startGroup => contradiction
    case endGroup => contradiction
    all_goals exact h
  obtain ⟨_, i', hi, hi'⟩ := Reader.bind_eq_ok_iff.mp h
  obtain ⟨x, rfl, hx⟩ := streaming_skipPlain.eq_ok_iff.mp hi
  exact ⟨x, i', rfl, reads_skipPlain_iff.mp hx, hi'⟩

-- Conversely, when the loop returns it has closed the innermost group. The induction is on the length of
-- the input, since a nested group is followed by the rest of the group around it.
theorem isGroup_of_skipGroups (hd : outer.length + 1 ≤ depth)
    (h : skipGroups depth (g :: outer) i = .ok ((), rest)) :
    ∃ y i', i = y ++ i' ∧ IsGroup (depth - (outer.length + 1)) g y ∧
      skipGroups depth outer i' = .ok ((), rest) := by
  induction hn : i.length using Nat.strong_induction_on generalizing g outer i
  case h n ih =>
    obtain ⟨⟨k, w⟩, i₁, hk, -⟩ := Reader.bind_eq_ok_iff.mp (skipGroups_cons ▸ h)
    have hlt := progress_readTag _ _ _ hk
    obtain ⟨t, rfl, ht⟩ := streaming_readTag.eq_ok_iff.mp hk
    replace ht := reads_readTag_iff.mp ht
    by_cases hs : w = .startGroup
    · subst hs
      rw [skipGroups_start ht] at h
      split at h
      case isTrue => cases h
      case isFalse hlen =>
        simp only [List.length_cons, ge_iff_le, not_le] at hlen
        obtain ⟨y₁, i₂, rfl, hy₁, h₂⟩ := ih _ (by omega) (by simp only [List.length_cons]; omega) h rfl
        obtain ⟨y₂, i₃, rfl, hy₂, h₃⟩ := ih _ (by simp at hlt hn; omega) hd h₂ rfl
        refine ⟨t ++ (y₁ ++ y₂), i₃, by simp, ?_, h₃⟩
        obtain ⟨d, hd'⟩ : ∃ d, depth - (outer.length + 1) = d + 1 := ⟨depth - (outer.length + 2), by omega⟩
        have hd'' : depth - ((g :: outer).length + 1) = d := by simp only [List.length_cons]; omega
        rw [hd'] at hy₂ ⊢
        exact .nested ht (hd'' ▸ hy₁) hy₂
    · by_cases he : w = .endGroup
      · subst he
        obtain rfl := eq_of_skipGroups_end ht h
        exact ⟨t, i₁, rfl, .done ht, skipGroups_end ht ▸ h⟩
      · obtain ⟨x, i₂, rfl, hx, h₂⟩ := isPlain_of_skipGroups ht hs he h
        obtain ⟨y, i₃, rfl, hy, h₃⟩ := ih _ (by simp at hlt hn; omega) hd h₂ rfl
        exact ⟨t ++ (x ++ y), i₃, by simp, .plain ht hx hy, h₃⟩

end Groups

theorem reads_skipValueWithin_iff : (skipValueWithin d n w).Reads x () ↔ IsBody d n w x := by
  by_cases hs : w = .startGroup
  case neg =>
    have hp : skipValueWithin d n w = skipPlain w := by
      cases w
      case startGroup => contradiction
      all_goals rfl
    rw [hp, reads_skipPlain_iff]
    constructor
    · exact .plain
    · intro h
      cases h
      case plain h => exact h
      case group => contradiction
  case pos =>
    subst hs
    rw [streaming_skipValueWithin.reads_iff, skipValueWithin]
    split
    case isTrue hd =>
      obtain rfl : d = 0 := by omega
      constructor
      · intro h; cases h
      · intro h; cases h with | plain h => cases h
    case isFalse hd =>
      obtain ⟨d, rfl⟩ : ∃ d', d = d' + 1 := ⟨d - 1, by omega⟩
      constructor
      · intro h
        obtain ⟨y, i', rfl, hy, h⟩ := isGroup_of_skipGroups (by simp) h
        rw [skipGroups_nil, Reader.pure_eq] at h
        cases h
        rw [List.append_nil]
        exact .group hy
      · intro h
        cases h
        case plain h => cases h
        case group h =>
          have hskip : skipGroups (d + 1) [n] (x ++ []) = skipGroups (d + 1) [] [] :=
            skipGroups_of_isGroup h (by simp)
          rwa [List.append_nil, skipGroups_nil, Reader.pure_eq] at hskip

theorem skipField_eq_ok_iff (before tag rest : Bytes) {raw : Bytes} {pos : Nat} :
    skipField d (before ++ (tag ++ rest)) (before.length + tag.length) n w before.length = .ok (raw, pos) ↔
      ∃ body after, rest = body ++ after ∧ IsBody d n w body ∧ raw = tag ++ body ∧
        pos = before.length + tag.length + body.length := by
  have hdrop : (before ++ (tag ++ rest)).drop (before.length + tag.length) = rest := by
    rw [← List.append_assoc, ← List.length_append, List.drop_left]
  have hraw (body after : Bytes) (hr : rest = body ++ after) :
      (before ++ (tag ++ rest)).length - after.length = before.length + tag.length + body.length ∧
      ((before ++ (tag ++ rest)).take (before.length + tag.length + body.length)).drop before.length =
        tag ++ body := by
    subst hr
    constructor
    case left => simp only [List.length_append]; omega
    case right =>
      have happ : before ++ (tag ++ (body ++ after)) = (before ++ (tag ++ body)) ++ after := by simp
      have hlen : before.length + tag.length + body.length = (before ++ (tag ++ body)).length := by
        simp only [List.length_append]
        omega
      rw [happ, hlen, List.take_left, List.drop_left]
  simp only [skipField, hdrop]
  cases hs : skipValueWithin d n w rest
  case error e =>
    simp only [reduceCtorEq, false_iff, not_exists, not_and]
    rintro body after rfl hb
    cases hs.symm.trans <| reads_skipValueWithin_iff.mpr hb after
  case ok r =>
    obtain ⟨⟨⟩, after⟩ := r
    obtain ⟨body, hr, hb⟩ := streaming_skipValueWithin.eq_ok_iff.mp hs
    simp only [(hraw body after hr).left, (hraw body after hr).right, Except.ok.injEq, Prod.mk.injEq]
    constructor
    · rintro ⟨rfl, rfl⟩
      exact ⟨body, after, hr, reads_skipValueWithin_iff.mp hb, rfl, rfl⟩
    · rintro ⟨body', after', hr', hb', rfl, rfl⟩
      have hs' := reads_skipValueWithin_iff.mpr hb' after'
      rw [← hr', hs] at hs'
      cases hs'
      obtain rfl := List.append_cancel_right <| hr.symm.trans hr'
      exact ⟨rfl, rfl⟩

-- Skipping recognises exactly the well-formed bodies. It returns the tag and the body and stops behind
-- them, and reading what it returns gives the same record again.
theorem skipField_iff (d n : Nat) (w : WireType) (before tag rest : Bytes) (ht : IsTag tag n w) :
    (∀ raw pos,
      skipField d (before ++ (tag ++ rest)) (before.length + tag.length) n w before.length = .ok (raw, pos) ↔
        ∃ body after, rest = body ++ after ∧ IsBody d n w body ∧ raw = tag ++ body ∧
          pos = before.length + tag.length + body.length) ∧
    ∀ body, IsBody d n w body →
      readTag (tag ++ body) = .ok ((n, w), body) ∧
      skipField d (tag ++ body) tag.length n w 0 = .ok (tag ++ body, (tag ++ body).length) := by
  refine ⟨fun raw pos => skipField_eq_ok_iff before tag rest, fun body hb => ⟨reads_readTag_iff.mpr ht body, ?_⟩⟩
  have hok := (skipField_eq_ok_iff [] tag body).mpr ⟨body, [], by simp, hb, rfl, rfl⟩
  simpa using hok

theorem isTag_single {b : UInt8} (hb : b.toNat < 0x80) (hv : b.toNat = n * 8 + w.number) (hn : 0 < n) :
    IsTag [b] n w where
  terminated := .last hb
  length_le := by simp
  value_eq := by simp only [Varint.value]; omega
  pos := hn
  le := by simp only [maxFieldNumber]; omega

theorem skipField_iff_emptyGroup : skipField 1 [0x0B, 0x0C, 0xFF] 1 1 .startGroup 0 = .ok ([0x0B, 0x0C], 2) := by
  have ht : IsTag [0x0B] 1 .startGroup := isTag_single (by decide) (by decide) (by decide)
  have he : IsTag [0x0C] 1 .endGroup := isTag_single (by decide) (by decide) (by decide)
  exact ((skipField_iff 1 1 .startGroup [] [0x0B] [0x0C, 0xFF] ht).1 _ _).mpr
    ⟨[0x0C], [0xFF], rfl, .group (.done he), rfl, rfl⟩

end BinaryReader

end Protos
