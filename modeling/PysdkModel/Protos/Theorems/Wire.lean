import PysdkModel.Protos.Schema

namespace Protos

open Reader (Reads Streaming StreamingTo)

namespace BinaryReader

theorem skipGroups_nil {depth : Nat} : skipGroups depth [] = pure () := by
  funext i
  rw [skipGroups]
  rfl

theorem skipGroups_cons {depth g : Nat} {outer : List Nat} :
    skipGroups depth (g :: outer) = (do
      let (number, wireType) ← readTag
      match wireType with
      | .startGroup =>
        if (g :: outer).length ≥ depth then
          Reader.fail .groupNesting
        else
          skipGroups depth (number :: g :: outer)
      | .endGroup => if number ≠ g then Reader.fail .mismatchedEndGroup else skipGroups depth outer
      | w => skipPlain w >>= fun _ => skipGroups depth (g :: outer)) := by
  funext i
  rw [skipGroups, Reader.bind_eq]
  split
  case h_1 h => simp only [h]
  case h_2 number wireType rest h =>
    simp only [h]
    cases wireType <;> simp only [Reader.bind_eq] <;> split <;> simp_all [Reader.fail]

theorem streaming_skipGroups {depth : Nat} {groups : List Nat} : (skipGroups depth groups).Streaming := by
  refine Streaming.of_to fun n => ?_
  induction n generalizing groups
  case zero => intro _ _ _ h; omega
  case succ n ih =>
    cases groups
    case nil => rw [skipGroups_nil]; exact Streaming.pure.to
    case cons g outer =>
      rw [skipGroups_cons]
      refine progress_readTag.bind_to streaming_readTag fun (number, wireType) => ?_
      cases wireType
      case startGroup =>
        dsimp only
        split
        · exact Streaming.fail.to
        · exact ih
      case endGroup =>
        dsimp only
        split
        · exact Streaming.fail.to
        · exact ih
      all_goals exact streaming_skipPlain.bind_to fun _ => ih

theorem streaming_skipValueWithin {depth number : Nat} {w : WireType} : (skipValueWithin depth number w).Streaming := by
  cases w <;> simp only [skipValueWithin]
  case startGroup => exact .ite .fail streaming_skipGroups
  all_goals exact streaming_skipPlain

theorem streaming_skipValue {number : Nat} {w : WireType} : (skipValue number w).Streaming :=
  streaming_skipValueWithin

section

variable {α : Type} {read : BinaryReader α}

theorem readPackedValues_zero : readPackedValues read 0 = pure [] := by
  rw [readPackedValues, if_pos rfl]

theorem readPackedValues_reads (hr : read.Streaming) {size : Nat} {i rest : Bytes} {vs : List α}
    (h : readPackedValues read size i = .ok (vs, rest)) :
    ∃ x, i = x ++ rest ∧ x.length = size ∧ (readPackedValues read size).Reads x vs := by
  induction size using Nat.strongRecOn generalizing i vs
  case ind size ih =>
    rw [readPackedValues] at h
    split at h
    case isTrue hs =>
      cases h
      subst hs
      exact ⟨[], rfl, rfl, by rw [readPackedValues_zero]; exact .pure⟩
    case isFalse hs =>
      have ⟨⟨value, raw⟩, rest₁, h₁, h⟩ := Reader.bind_eq_ok_iff.mp h
      have ⟨hi, hx⟩ := hr.raw h₁
      dsimp only at h
      split at h
      case isFalse => cases h
      case isTrue hlen =>
        have ⟨values, rest₂, h₂, h⟩ := Reader.bind_eq_ok_iff.mp h
        cases h
        have ⟨y, hy, hl, hry⟩ := ih _ (by omega) h₂
        refine ⟨raw ++ y, by rw [hi, hy, List.append_assoc], by rw [List.length_append]; omega, ?_⟩
        rw [readPackedValues, if_neg hs]
        refine hx.withRaw.bind ?_
        dsimp only
        rw [dif_pos hlen]
        exact hry.bind_nil .pure

theorem streaming_readPacked (hr : read.Streaming) : (readPacked read).Streaming := by
  refine streaming_readVarint.bind fun size => ?_
  intro i vs rest h
  dsimp only at h
  split at h
  case isTrue => cases h
  have ⟨x, hi, hl, hx⟩ := readPackedValues_reads hr h
  refine ⟨x, hi, fun rest => ?_⟩
  dsimp only
  rw [if_neg (by rw [List.length_append]; omega)]
  exact hx rest

end

end BinaryReader

namespace Codec

open BinaryReader

theorem streaming_readFixed {width : Nat} : (readFixed width).Streaming :=
  Streaming.exact.bind fun _ => .pure

theorem streaming_readString : readString.Streaming := by
  refine streaming_readBytes.bind fun b => ?_
  cases Text.decodeUtf8 b
  case none => exact .fail
  case some => exact .pure

theorem streaming_read {c : Codec} : c.read.Streaming := by
  have map {α β} {p : BinaryReader α} {f : α → β} (hp : p.Streaming) :
      (p >>= fun a => pure (f a)).Streaming := hp.bind fun _ => .pure
  cases c
  case float | double => exact map streaming_readFixed
  case fixed32 | sfixed32 | fixed64 | sfixed64 => exact map <| map streaming_readFixed
  case bytes => exact map streaming_readBytes
  case string => exact map streaming_readString
  case message => exact .fail
  all_goals exact map <| map streaming_readVarint

end Codec

section

variable {b : Bytes} {v : Int}

open BinaryReader BinaryWriter

theorem reads_of_writeVarint (h : writeVarint v = .ok b) : readVarint.Reads b v.toNat := by
  unfold writeVarint at h
  split at h
  case isTrue => cases h
  case isFalse hv =>
    cases h
    have hlt : v.toNat < 2 ^ 64 := by simp only [maxUint64] at hv; omega
    refine (Varint.reads_decodeGroups (by omega) (by simp only [varintFormat]; omega)).bind_nil ?_
    rw [Nat.mod_eq_of_lt hlt]
    exact .pure

theorem nonneg_of_writeVarint (h : writeVarint v = .ok b) : 0 ≤ v := by
  unfold writeVarint at h
  split at h
  · cases h
  · omega

theorem ne_nil_of_writeVarint (h : writeVarint v = .ok b) : b ≠ [] := by
  unfold writeVarint at h
  split at h
  · cases h
  · cases h; exact Varint.encode_ne_nil

theorem reads_of_writeTag {number : Nat} {w : WireType} (h : writeTag number w = .ok b) :
    readTag.Reads b (number, w) := by
  unfold writeTag writeVarint at h
  split at h
  case isTrue => cases h
  case isFalse hn =>
    split at h
    case isTrue => cases h
    cases h
    have hw := w.number_lt
    have ht : ((number : Int) * 8 + (w.number : Int)).toNat = number * 8 + w.number := by omega
    simp only [maxFieldNumber] at hn
    rw [ht]
    refine (Varint.reads_decodeGroups (by omega) (by simp only [tagFormat]; omega)).bind_nil ?_
    have hd : (number * 8 + w.number) / 8 = number := by omega
    have hm : (number * 8 + w.number) % 8 = w.number := by omega
    simp only [hd, hm, WireType.ofNumber?_number, maxFieldNumber]
    rw [if_neg hn]
    exact .pure

theorem ne_nil_of_writeTag {number : Nat} {w : WireType} (h : writeTag number w = .ok b) : b ≠ [] := by
  unfold writeTag at h
  split at h
  · cases h
  · exact ne_nil_of_writeVarint h

theorem reads_of_writeBytes {x : Bytes} (h : writeBytes x = .ok b) : readBytes.Reads b x := by
  obtain ⟨len, hlen, ⟨⟩⟩ := Except.bind_eq_ok_iff.mp h
  exact (reads_of_writeVarint hlen).bind Reads.exact

theorem reads_of_writeString {t : Text} (h : writeString t = .ok b) : readString.Reads b t := by
  unfold writeString at h
  split at h
  case h_1 => cases h
  case h_2 x hx =>
    refine (reads_of_writeBytes h).bind_nil ?_
    rw [Text.decodeUtf8_of_encodeUtf8 hx]
    exact .pure

theorem of_checkRange {low high : Int} {e : EncodeError} (h : checkRange low high v e = .ok ()) :
    low ≤ v ∧ v < high := by
  unfold checkRange at h
  split at h
  case isTrue hv => exact hv
  case isFalse => cases h

theorem reads_readFixed {width n : Nat} (h : n < 0x100 ^ width) :
    (readFixed width).Reads (LittleEndian.encode width n) n := by
  have hx : (readExact width).Reads (LittleEndian.encode width n) (LittleEndian.encode width n) := by
    nth_rewrite 1 [← LittleEndian.length_encode (w := width) (n := n)]
    exact Reads.exact
  refine hx.bind_nil ?_
  rw [LittleEndian.decode_encode h]
  exact .pure

theorem reads_of_writeFixed {width : Nat} {low high : Int} (h : writeFixed width low high v = .ok b) :
    (low ≤ v ∧ v < high) ∧ (readFixed width).Reads b (v % 2 ^ (8 * width)).toNat := by
  obtain ⟨⟨⟩, hr, ⟨⟩⟩ := Except.bind_eq_ok_iff.mp h
  refine ⟨of_checkRange hr, reads_readFixed ?_⟩
  have hp : (0x100 : Int) ^ width = 2 ^ (8 * width) := by rw [pow_mul]; norm_num
  have := Int.emod_lt_of_pos v (show (0 : Int) < 2 ^ (8 * width) by positivity)
  rw [← hp] at this ⊢
  rw [Int.toNat_lt (Int.emod_nonneg _ (by positivity))]
  exact_mod_cast this

theorem signed_eq {bits : Nat} (hb : 0 < bits) (hl : -2 ^ (bits - 1) ≤ v) (hh : v < 2 ^ (bits - 1)) :
    signed v bits = v := by
  have hp : (2 : Int) ^ bits = 2 * 2 ^ (bits - 1) := by
    rw [← pow_succ']
    congr 1
    omega
  have hpos : (0 : Int) < 2 ^ (bits - 1) := by positivity
  rw [signed]
  by_cases hv : 0 ≤ v
  case pos => rw [Int.emod_eq_of_lt hv (by omega), if_neg (by omega)]
  have he : v % 2 ^ bits = v + 2 ^ bits := by
    rw [← Int.add_emod_right, Int.emod_eq_of_lt (by omega) (by omega)]
  rw [he, if_pos (by omega)]
  omega

theorem signed_emod {bits bits' : Nat} (hb : 0 < bits) (hb' : bits ≤ bits') (hl : -2 ^ (bits - 1) ≤ v)
    (hh : v < 2 ^ (bits - 1)) : signed (v % 2 ^ bits').toNat bits = v := by
  have hd : (2 : Int) ^ bits ∣ 2 ^ bits' := pow_dvd_pow 2 hb'
  have hs : signed (v % 2 ^ bits').toNat bits = signed v bits := by
    rw [Int.toNat_of_nonneg (Int.emod_nonneg _ (by positivity)), signed, signed,
      Int.emod_emod_of_dvd _ hd]
  rw [hs, signed_eq hb hl hh]

theorem zigzagDecode_zigzagEncode : zigzagDecode (zigzagEncode v).toNat = v := by
  unfold zigzagDecode zigzagEncode
  split <;> split <;> omega

theorem Codec.reads_of_write {c : Codec} {s : Scalar} (h : c.write s = .ok b) : c.read.Reads b s := by
  cases c <;> cases s <;> simp only [Codec.write] at h <;> try cases h
  case int32.int i | enum.int i | int64.int i =>
    obtain ⟨⟨⟩, hr, hw⟩ := Except.bind_eq_ok_iff.mp h
    have ⟨hl, hh⟩ := of_checkRange hr
    refine .map (.map (reads_of_writeVarint hw) rfl) ?_
    rw [signed_emod (by omega) (by omega) hl hh]
  case uint32.int i =>
    obtain ⟨⟨⟩, hr, hw⟩ := Except.bind_eq_ok_iff.mp h
    have ⟨hl, hh⟩ := of_checkRange hr
    refine .map (.map (reads_of_writeVarint hw) rfl) ?_
    congr 1
    omega
  case uint64.int i =>
    have := nonneg_of_writeVarint h
    refine .map (.map (reads_of_writeVarint h) rfl) ?_
    congr 1
    omega
  case sint32.int i =>
    obtain ⟨⟨⟩, hr, hw⟩ := Except.bind_eq_ok_iff.mp h
    have ⟨hl, hh⟩ := of_checkRange hr
    refine .map (.map (reads_of_writeVarint hw) rfl) ?_
    have hz : (zigzagEncode i % 2 ^ 32).toNat % 2 ^ 32 = (zigzagEncode i).toNat := by
      simp only [zigzagEncode]
      split <;> omega
    rw [hz, zigzagDecode_zigzagEncode, signed_eq (by omega) hl hh]
  case sint64.int i =>
    obtain ⟨⟨⟩, hr, hw⟩ := Except.bind_eq_ok_iff.mp h
    have ⟨hl, hh⟩ := of_checkRange hr
    refine .map (.map (reads_of_writeVarint hw) rfl) ?_
    have hz : (zigzagEncode i % 2 ^ 64).toNat = (zigzagEncode i).toNat := by
      simp only [zigzagEncode]
      split <;> omega
    rw [hz, zigzagDecode_zigzagEncode, signed_eq (by omega) hl hh]
  case bool.bool x =>
    refine .map (.map (reads_of_writeVarint h) rfl) ?_
    cases x <;> rfl
  case fixed32.int i | fixed64.int i =>
    have ⟨⟨hl, hh⟩, hx⟩ := reads_of_writeFixed h
    refine .map (.map hx rfl) ?_
    congr 1
    omega
  case sfixed32.int i | sfixed64.int i =>
    have ⟨⟨hl, hh⟩, hx⟩ := reads_of_writeFixed h
    refine .map (.map hx rfl) ?_
    rw [signed_emod (by omega) (by omega) hl hh]
  case float.float.refl bits | double.double.refl bits =>
    refine .map (reads_readFixed ?_) (by simp)
    exact bits.isLt.trans_le (by decide)
  case bytes.bytes x => exact .map (reads_of_writeBytes h) rfl
  case string.string t => exact .map (reads_of_writeString h) rfl

theorem Codec.ne_nil_of_write {c : Codec} {s : Scalar} (hp : c.packable) (h : c.write s = .ok b) : b ≠ [] := by
  have fixed {width low high i} (hw : width ≠ 0) (h : writeFixed width low high i = .ok b) : b ≠ [] := by
    obtain ⟨⟨⟩, _, ⟨⟩⟩ := Except.bind_eq_ok_iff.mp h
    rw [← List.length_pos_iff_ne_nil, LittleEndian.length_encode]
    omega
  cases c <;> cases s <;> simp only [Codec.write] at h <;> simp only [Codec.packable] at hp <;> try cases h
  case uint64.int | bool.bool => exact ne_nil_of_writeVarint h
  case fixed32.int | sfixed32.int | fixed64.int | sfixed64.int => exact fixed (by decide) h
  case float.float.refl | double.double.refl => simp [LittleEndian.encode]
  case bytes.bytes | string.string => cases hp
  all_goals
    obtain ⟨_, _, hw⟩ := Except.bind_eq_ok_iff.mp h
    exact ne_nil_of_writeVarint hw

section

variable {α : Type} {read : BinaryReader α}

theorem reads_readPackedValues {vs : List α} {xs : List Bytes}
    (h : List.Forall₂ (fun v x => read.Reads x v ∧ x ≠ []) vs xs) :
    (readPackedValues read xs.flatten.length).Reads xs.flatten vs := by
  induction h
  case nil => rw [List.flatten_nil, List.length_nil, readPackedValues_zero]; exact .pure
  case cons v x vs xs hx _ ih =>
    have hpos := List.length_pos_iff_ne_nil.mpr hx.right
    have hlen : (x :: xs).flatten.length = x.length + xs.flatten.length := by
      rw [List.flatten_cons, List.length_append]
    rw [readPackedValues, if_neg (by omega), List.flatten_cons]
    refine hx.left.withRaw.bind ?_
    dsimp only
    rw [dif_pos (by rw [List.length_append]; omega), List.length_append, Nat.add_sub_cancel_left]
    exact .map ih rfl

theorem reads_of_writePacked {β : Type} {write : β → Except EncodeError Bytes} {us : List β} {vs : List α}
    (hw : List.Forall₂ (fun u v => ∀ x, write u = .ok x → read.Reads x v ∧ x ≠ []) us vs)
    (h : writePacked us write = .ok b) : (readPacked read).Reads b vs := by
  obtain ⟨xs, hxs, h⟩ := Except.bind_eq_ok_iff.mp h
  obtain ⟨len, hlen, ⟨⟩⟩ := Except.bind_eq_ok_iff.mp h
  have hall : List.Forall₂ (fun v x => read.Reads x v ∧ x ≠ []) vs xs :=
    Except.forall₂_of_mapM (fun u v x hu => hu x) hw hxs
  refine (reads_of_writeVarint hlen).bind fun rest => ?_
  rw [Int.toNat_natCast, if_neg (by rw [List.length_append]; omega)]
  exact reads_readPackedValues hall rest

end

end

end Protos
