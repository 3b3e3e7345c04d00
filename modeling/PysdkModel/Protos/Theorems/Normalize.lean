import Mathlib.Algebra.Order.BigOperators.Group.List
import PysdkModel.Protos.Normalize
import PysdkModel.Protos.Theorems.Robust

namespace Protos

open BinaryReader BinaryWriter

namespace BinaryWriter

variable {v : Int}

theorem writeVarint_isOk (hl : 0 ≤ v) (hh : v < 2 ^ 64) : ∃ b, writeVarint v = .ok b ∧ b.length ≤ 10 := by
  refine ⟨Varint.encode v.toNat, ?_, Varint.length_encode_le (k := 9) (by omega)⟩
  rw [writeVarint, if_neg]
  simp only [maxUint64]
  omega

theorem writeFixed_isOk {low high : Int} (width : Nat) (hl : low ≤ v) (hh : v < high) :
    ∃ b, writeFixed width low high v = .ok b ∧ b.length ≤ width := by
  refine ⟨LittleEndian.encode width (v % 2 ^ (8 * width)).toNat, ?_, by rw [LittleEndian.length_encode]⟩
  rw [writeFixed, checkRange, if_pos ⟨hl, hh⟩]
  rfl

theorem write_isOk_of_checkRange {low high value : Int} {e : EncodeError} (hl : low ≤ v) (hh : v < high)
    (hl' : 0 ≤ value) (hh' : value < 2 ^ 64) :
    ∃ b, (checkRange low high v e >>= fun _ => writeVarint value) = .ok b ∧ b.length ≤ 10 := by
  rw [checkRange, if_pos ⟨hl, hh⟩]
  exact writeVarint_isOk hl' hh'

theorem writeBytes_isOk {x : Bytes} (h : x.length < 2 ^ 64) : ∃ b, writeBytes x = .ok b := by
  obtain ⟨len, hlen, _⟩ := writeVarint_isOk (v := x.length) (by omega) (by omega)
  exact ⟨len ++ x, Except.bind_eq_ok_iff.mpr ⟨len, hlen, rfl⟩⟩

theorem writeString_isOk_iff {t : Text} (ho : (Scalar.string t).IsObject) :
    (∃ b, writeString t = .ok b) ↔ t.IsScalar := by
  rw [← Text.encodeUtf8_isSome_iff, writeString]
  cases he : t.encodeUtf8
  case none => simp
  case some x =>
    have hx := ho x he
    simpa using writeBytes_isOk (x := x) (by omega)

end BinaryWriter

namespace Codec

variable {c : Codec} {s v : Scalar} {t : Bytes}

theorem write_isOk_of_packable (hp : c.packable) (ha : c.accepts s) : ∃ b, c.write s = .ok b ∧ b.length ≤ 10 := by
  cases c <;> cases s <;> simp only [accepts, Bool.and_eq_true, decide_eq_true_eq, Bool.false_eq_true] at ha
  case int32.int | int64.int => exact write_isOk_of_checkRange ha.1 ha.2 (by omega) (by omega)
  case enum.int => exact write_isOk_of_checkRange ha.1.1 ha.1.2 (by omega) (by omega)
  case uint32.int => exact write_isOk_of_checkRange ha.1 ha.2 ha.1 (by omega)
  case uint64.int => exact writeVarint_isOk ha.1 ha.2
  case sint32.int | sint64.int => exact write_isOk_of_checkRange ha.1 ha.2 (by omega) (by omega)
  case bool.bool b => exact writeVarint_isOk (by split <;> omega) (by split <;> omega)
  case fixed32.int | sfixed32.int =>
    obtain ⟨b, hb, hl⟩ := writeFixed_isOk 4 ha.1 ha.2
    exact ⟨b, hb, by omega⟩
  case fixed64.int | sfixed64.int =>
    obtain ⟨b, hb, hl⟩ := writeFixed_isOk 8 ha.1 ha.2
    exact ⟨b, hb, by omega⟩
  case float.float | double.double => exact ⟨_, rfl, by simp [LittleEndian.length_encode]⟩
  case bytes.bytes | string.string => cases hp

theorem of_normalize (h : (c.normalize v).isSome) : c.accepts (c.written v) ∨ c = .string ∧ ∃ b, v = .bytes b := by
  unfold normalize at h
  split at h
  case h_1 => exact .inl rfl
  case h_2 b => exact .inr ⟨rfl, b, rfl⟩
  case h_3 =>
    split at h
    case isTrue ha => exact .inl ha
    case isFalse => cases h

theorem accepts_of_normalize (hp : c.packable) (h : (c.normalize v).isSome) : c.accepts (c.written v) := by
  refine (of_normalize h).resolve_right ?_
  rintro ⟨rfl, _⟩
  cases hp

theorem number_agrees : v.number.agrees v := by
  cases v <;> rfl

theorem written_agrees (h : c ≠ .bool) : (c.written v).agrees v := by
  unfold written
  split
  case h_1 => exact absurd rfl h
  case h_2 => rfl
  case h_3 => exact number_agrees

theorem roundTrips_iff_agrees {b : Bytes} (h : c.writeRaw v = .ok b) : c.RoundTrips v t ↔ (c.written v).agrees v := by
  have hr := reads_of_write h t
  constructor
  · rintro ⟨b', s, hw, hs, ha⟩
    rw [h] at hw
    cases hw
    rw [hr] at hs
    cases hs
    exact ha
  · exact fun ha => ⟨b, _, h, hr, ha⟩

theorem agrees_iff_represents (h : c ≠ .string) : (c.written v).agrees v ↔ c.Represents v := by
  unfold Represents
  split
  case h_1 i =>
    change (decide (i ≠ 0)).toInt = i ↔ _
    by_cases hi : i = 0
    · simp [hi]
    · simp [hi, eq_comm]
  case h_2 => exact absurd rfl h
  case h_3 => exact absurd rfl h
  case h_4 hb _ _ =>
    refine iff_true_intro ?_
    by_cases hc : c = .bool
    case neg => exact written_agrees hc
    case pos =>
      subst hc
      cases v
      case int => exact (hb _ rfl rfl).elim
      all_goals rfl

theorem roundTrips_string_iff (hn : (string.normalize v).isSome) (ho : v.IsObject) :
    string.RoundTrips v t ↔ string.Represents v := by
  cases v
  case string x =>
    refine Iff.trans ?_ (writeString_isOk_iff ho)
    constructor
    · rintro ⟨b, _, hw, _⟩
      exact ⟨b, hw⟩
    · rintro ⟨b, hw⟩
      exact (roundTrips_iff_agrees (c := string) (v := .string x) hw).mpr rfl
  case bytes x =>
    refine iff_of_false ?_ id
    rintro ⟨b, _, ⟨⟩, _⟩
  all_goals cases hn

-- Values that are normalized are read as they have been written, except for those that the wire format
-- cannot represent.
theorem roundTrips_iff (he : c.isExact) (hn : (c.normalize v).isSome) (ho : v.IsObject) :
    c.RoundTrips v t ↔ c.Represents v := by
  by_cases hs : c = .string
  case pos =>
    subst hs
    exact roundTrips_string_iff hn ho
  case neg =>
    have ha := (of_normalize hn).resolve_right fun h => hs h.1
    obtain ⟨b, hb⟩ : ∃ b, c.writeRaw v = .ok b := by
      by_cases hp : c.packable
      case pos => exact (write_isOk_of_packable hp ha).imp fun _ h => h.1
      case neg =>
        cases c <;> simp only [packable, not_true_eq_false] at hp <;> try cases he
        case bytes =>
          cases v <;> try cases ha
          case bytes x => exact writeBytes_isOk (ho.trans (by decide))
        case string => exact absurd rfl hs
    rw [roundTrips_iff_agrees hb, agrees_iff_represents hs]

theorem writePacked_isOk {vs : List Scalar} (hl : vs.length < 2 ^ 60)
    (h : ∀ v ∈ vs, ∃ b, c.writeRaw v = .ok b ∧ b.length ≤ 10) : ∃ b, writePacked vs c.writeRaw = .ok b := by
  obtain ⟨xs, hxs, hle⟩ := Except.mapM_isOk h
  have hlen : xs.length = vs.length := (Except.mapM_eq_ok_iff.mp hxs).length_eq.symm
  have hsum : xs.flatten.length ≤ xs.length * 10 := by
    have := List.sum_le_card_nsmul (xs.map List.length) 10 (by simpa using hle)
    simpa [List.length_flatten] using this
  obtain ⟨b, hb⟩ := writeBytes_isOk (x := xs.flatten) (by omega)
  exact ⟨b, Except.bind_eq_ok_iff.mpr ⟨xs, hxs, hb⟩⟩

theorem reads_packed {vs : List Scalar} {b : Bytes} (hp : c.packable) (h : writePacked vs c.writeRaw = .ok b) :
    (readPacked c.read).Reads b (vs.map c.written) := by
  refine reads_of_writePacked ?_ h
  rw [List.forall₂_map_right_iff, List.forall₂_same]
  exact fun v _ x hx => ⟨reads_of_write hx, ne_nil_of_write hp hx⟩

theorem roundTripsPacked_iff {vs : List Scalar} (hp : c.packable) (hn : ∀ v ∈ vs, (c.normalize v).isSome)
    (hl : vs.length < 2 ^ 60) : c.RoundTripsPacked vs t ↔ ∀ v ∈ vs, c.Represents v := by
  have hok : ∀ v ∈ vs, ∃ b, c.writeRaw v = .ok b ∧ b.length ≤ 10 := fun v hv =>
    write_isOk_of_packable hp (accepts_of_normalize hp (hn v hv))
  have hs : c ≠ .string := by
    rintro rfl
    cases hp
  obtain ⟨b, hb⟩ := writePacked_isOk hl hok
  have hr := reads_packed hp hb t
  have ha : List.Forall₂ Scalar.agrees (vs.map c.written) vs ↔ ∀ v ∈ vs, c.Represents v := by
    rw [List.forall₂_map_left_iff, List.forall₂_same]
    exact forall₂_congr fun v _ => agrees_iff_represents hs
  rw [← ha]
  constructor
  · rintro ⟨b', ss, hw, hss, ha⟩
    rw [hb] at hw
    cases hw
    rw [hr] at hss
    cases hss
    exact ha
  · exact fun ha => ⟨b, _, hb, hr, ha⟩

-- The codecs and the writers and readers of tags and packed lists are inverse to each other on the values
-- that the wire format represents, and only on these.
theorem inverse (c : Codec) (v : Scalar) (vs : List Scalar) (number : Nat) (w : WireType) (t : Bytes) :
    (c.isExact → (c.normalize v).isSome → v.IsObject → (c.RoundTrips v t ↔ c.Represents v)) ∧
    (1 ≤ number → number ≤ maxFieldNumber →
      ∃ b, writeTag number w = .ok b ∧ readTag (b ++ t) = .ok ((number, w), t)) ∧
    (c.packable → (∀ v ∈ vs, (c.normalize v).isSome) → vs.length < 2 ^ 60 →
      (c.RoundTripsPacked vs t ↔ ∀ v ∈ vs, c.Represents v)) := by
  refine ⟨roundTrips_iff, ?_, roundTripsPacked_iff⟩
  intro hl hh
  obtain ⟨b, hb⟩ := writeTag_isOk (by omega) hh w
  exact ⟨b, hb, reads_of_writeTag hb t⟩

theorem negativeNumber_inverse : (int32.RoundTrips (.int (-1)) [7]) ∧
    (∃ b, writeTag maxFieldNumber .fixed32 = .ok b ∧ readTag (b ++ [7]) = .ok ((maxFieldNumber, .fixed32), [7])) ∧
    int32.RoundTripsPacked [.int (-1), .bool true] [7] := by
  obtain ⟨hv, ht, hp⟩ := inverse int32 (.int (-1)) [.int (-1), .bool true] maxFieldNumber .fixed32 [7]
  refine ⟨(hv rfl (by decide) trivial).mpr trivial, ht (by decide) (by decide), ?_⟩
  refine (hp rfl (by decide) (by decide)).mpr ?_
  intro v hv
  simp only [List.mem_cons, List.not_mem_nil, or_false] at hv
  rcases hv with rfl | rfl <;> trivial

-- `normalize` takes a string with a lone surrogate, but the writer cannot encode it.
theorem surrogate_notWritten : string.normalize (.string [0xD800]) = some (.string [0xD800]) ∧
    string.writeRaw (.string [0xD800]) = .error .unicodeError ∧ ¬string.RoundTrips (.string [0xD800]) [] := by
  have hw : string.writeRaw (.string [0xD800]) = .error .unicodeError := by decide
  refine ⟨by decide, hw, ?_⟩
  rintro ⟨b, s, h, _⟩
  rw [hw] at h
  cases h

end Codec

end Protos
