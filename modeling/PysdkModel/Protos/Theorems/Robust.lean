import PysdkModel.Protos.Theorems.Deterministic
import PysdkModel.Protos.Theorems.Raising

-- Decoding fails with `DecodeError` only.

namespace Protos

open DecodeFailure (IsDecodeError)

namespace BinaryReader

theorem raises_readVarint : readVarint.Raises IsDecodeError :=
  (Varint.raises_decodeGroups trivial trivial trivial).bind fun _ => .pure

theorem raises_readTag : readTag.Raises IsDecodeError := by
  refine (Varint.raises_decodeGroups trivial trivial trivial).bind fun tag => ?_
  refine .ite (.fail trivial) ?_
  cases WireType.ofNumber? (tag % 8)
  case none => exact .fail trivial
  case some => exact .pure

theorem raises_readBytes : readBytes.Raises IsDecodeError :=
  raises_readVarint.bind fun _ => .exact trivial

theorem raises_readFixed {width : Nat} : (readFixed width).Raises IsDecodeError :=
  (Reader.Raises.exact trivial).bind fun _ => .pure

theorem raises_readString : readString.Raises IsDecodeError := by
  refine raises_readBytes.bind fun b => ?_
  cases Text.decodeUtf8 b
  case none => exact .fail trivial
  case some => exact .pure

theorem raises_skipPlain {w : WireType} : (skipPlain w).Raises IsDecodeError := by
  cases w
  case varint => exact raises_readVarint.bind fun _ => .pure
  case fixed64 => exact (Reader.Raises.exact trivial).bind fun _ => .pure
  case lengthDelimited => exact raises_readBytes.bind fun _ => .pure
  case fixed32 => exact (Reader.Raises.exact trivial).bind fun _ => .pure
  case startGroup => exact .fail trivial
  case endGroup => exact .fail trivial

theorem raises_skipGroups {depth : Nat} {groups : List Nat} : (skipGroups depth groups).Raises IsDecodeError := by
  intro i e he
  fun_induction skipGroups depth groups i
  case case1 => cases he
  case case2 ht => cases he; exact raises_readTag _ _ ht
  case case3 h _ => rw [if_pos h] at he; cases he; trivial
  case case4 h _ ih => rw [if_neg h] at he; exact ih he
  case case5 => cases he; trivial
  case case6 ih => exact ih he
  case case7 hp _ => cases he; exact raises_skipPlain _ _ hp
  case case8 ih => exact ih he

theorem raises_skipValue {number : Nat} {w : WireType} : (skipValue number w).Raises IsDecodeError := by
  unfold skipValue skipValueWithin
  split
  case h_1 => exact .ite (.fail trivial) raises_skipGroups
  case h_2 => exact raises_skipPlain

theorem raises_readPackedValues {α : Type} {read : BinaryReader α} (h : read.Raises IsDecodeError) {size : Nat} :
    (readPackedValues read size).Raises IsDecodeError := by
  induction size using Nat.strong_induction_on
  case h size ih =>
    rw [readPackedValues]
    refine .ite .pure <| h.withRaw.bind fun r => ?_
    dsimp only
    split
    case isTrue hr => exact (ih _ (by omega)).bind fun _ => .pure
    case isFalse => exact .fail trivial

theorem raises_readPacked {α : Type} {read : BinaryReader α} (h : read.Raises IsDecodeError) :
    (readPacked read).Raises IsDecodeError := by
  refine raises_readVarint.bind fun size i e he => ?_
  split at he
  · cases he; trivial
  · exact raises_readPackedValues h i e he

theorem readTag_bounds {i rest : Bytes} {number : Nat} {w : WireType}
    (h : readTag i = .ok ((number, w), rest)) : number ≠ 0 ∧ number ≤ maxFieldNumber := by
  obtain ⟨tag, _, _, h⟩ := Reader.bind_eq_ok_iff.mp h
  split at h
  case isTrue => cases h
  case isFalse hn =>
    cases hw : WireType.ofNumber? (tag % 8) <;> rw [hw] at h <;> cases h
    exact ⟨fun h => hn (.inl h), Nat.not_lt.mp fun h => hn (.inr h)⟩

end BinaryReader

open BinaryReader

theorem Codec.raises_read {c : Codec} (h : ¬c.isMessage) : c.read.Raises IsDecodeError := by
  cases c
  case message => exact absurd rfl h
  case int32 | int64 | uint32 | uint64 | sint32 | sint64 | bool | enum =>
    exact (raises_readVarint.bind fun _ => .pure).bind fun _ => .pure
  case fixed32 | sfixed32 | fixed64 | sfixed64 =>
    exact (raises_readFixed.bind fun _ => .pure).bind fun _ => .pure
  case float | double => exact raises_readFixed.bind fun _ => .pure
  case bytes => exact raises_readBytes.bind fun _ => .pure
  case string => exact raises_readString.bind fun _ => .pure

theorem BinaryWriter.writeTag_isOk {number : Nat} (h : number ≠ 0) (hl : number ≤ maxFieldNumber)
    (w : WireType) : ∃ tag, writeTag number w = .ok tag := by
  have hw := w.number_lt
  refine ⟨Varint.encode ((number : Int) * 8 + w.number).toNat, ?_⟩
  unfold writeTag writeVarint
  rw [if_neg (by omega), if_neg]
  simp only [maxFieldNumber, maxUint64] at hl ⊢
  omega

theorem Codec.write_isOk_of_closedEnumUnknown {c : Codec} {s : Scalar} (hu : c.closedEnumUnknown s)
    {i rest : Bytes} (h : c.read i = .ok (s, rest)) : ∃ b, c.write s = .ok b := by
  cases c
  case enum e =>
    obtain ⟨_, _, hv, ⟨⟩⟩ := Reader.bind_eq_ok_iff.mp h
    obtain ⟨v, _, _, ⟨⟩⟩ := Reader.bind_eq_ok_iff.mp hv
    have hb := signed_bounds 31 (v := v)
    refine ⟨Varint.encode (signed v 32 % 2 ^ 64).toNat, ?_⟩
    simp only [Codec.write, BinaryWriter.writeInt32, BinaryWriter.checkRange, BinaryWriter.writeVarint]
    rw [if_pos hb]
    change (if _ then _ else _) = _
    rw [if_neg]
    simp only [maxUint64]
    omega
  all_goals cases hu

def Codec.isMapKey : Codec → Bool
  | .float | .double | .bytes | .enum _ | .message _ => false
  | _ => true

-- What the protobuf language requires of the codecs of a field: the numbers of an enum have 32 bits, and
-- the keys of a map are integers, booleans or strings.
structure Field.IsProtobuf (f : Field) : Prop where
  enum : ∀ e, f.codec = .enum e → ∀ i ∈ e.values, -2 ^ 31 ≤ i ∧ i < 2 ^ 31
  mapKey : ∀ c, f.mapKeyCodec = some c → c.isMapKey

def Schema.IsProtobuf (S : Schema) : Prop :=
  ∀ ⦃c k f⦄, (S c).member? k = some f → f.IsProtobuf

theorem Codec.isMessage_of_isMapKey {c : Codec} (h : c.isMapKey) : ¬c.isMessage := by
  cases c <;> simp_all [Codec.isMapKey, Codec.isMessage]

theorem Codec.accepts_default_of_isMapKey {c : Codec} (h : c.isMapKey) : c.accepts c.default := by
  cases c <;> first | rfl | cases h

theorem Codec.accepts_of_read_key {c : Codec} (hc : c.isMapKey) {i rest : Bytes} {s : Scalar}
    (h : c.read i = .ok (s, rest)) : c.accepts s := by
  refine c.accepts_of_read h ?_
  cases c <;> first | rfl | cases hc

namespace Raising

open Message

variable {S : Schema} {B : Message → Prop} {n : Nat} {m : Message} {k : Key} {f : Field} {keyCodec : Codec}
  {merge : MessageMerger} {merge' : Message → Message → Message}
  {decode : MessageDecoder} {i rest : Bytes}

theorem holds_defaultValue (hf : f.IsProtobuf) : Holds S IsEmpty n f.codec f.codec.defaultValue := by
  cases hc : f.codec
  case enum e =>
    obtain ⟨hl, hh⟩ := hf.enum e hc _ e.default_mem
    refine ⟨?_, by rintro _ ⟨⟩⟩
    simp [Codec.defaultValue, Codec.default, Value.acceptedBy, Codec.accepts, e.default_mem]
    omega
  case message =>
    refine ⟨Value.acceptedBy_message_iff.mpr rfl, ?_⟩
    rintro _ ⟨⟩
    exact .empty fun _ => rfl
  all_goals exact ⟨rfl, by rintro _ ⟨⟩⟩

structure Decodes (S : Schema) (n : Nat) (decode : MessageDecoder) : Prop where
  raises : ∀ c b e, decode c b = .error e → e.IsDecodeError
  typed : Message.Decodes (·.TypedTo S IsEmpty n) decode

section

variable (hD : Decodes S n decode)
include hD

theorem raises_readValue {c : Codec} : (readValue decode c).Raises IsDecodeError := by
  cases c
  case message c =>
    refine Reader.Raises.bind (raises_readBytes.bind fun payload i e h => ?_) fun _ => .pure
    split at h
    case h_1 hd => cases h; exact hD.raises c payload _ hd
    case h_2 => cases h
  all_goals exact (Codec.raises_read (by simp [Codec.isMessage])).bind fun _ => .pure

omit hD in
theorem holds_of_readBy {c : Codec} {v : Value Message} (h : ReadBy (·.TypedTo S IsEmpty n) c v)
    (hu : v.closedEnumUnknown c = false) : Holds S IsEmpty n c v :=
  ⟨h.accepted hu, h.message⟩

theorem readValue_holds {c : Codec} {v : Value Message} (h : readValue decode c i = .ok (v, rest)) :
    v.closedEnumUnknown c = false → Holds S IsEmpty n c v :=
  holds_of_readBy (readValue_readBy hD.typed h)

variable (hA : Agrees S n merge merge')

structure EntryHolds (S : Schema) (n : Nat) (f : Field) (keyCodec : Codec) (s : EntryState) : Prop where
  key : keyCodec.accepts s.key
  value : Holds S IsEmpty n f.codec s.value

omit hD in
include hA in
theorem entryValue_spec {s : EntryState} (hs : EntryHolds S n f keyCodec s) {v : Value Message}
    (hv : v.closedEnumUnknown f.codec = false → Holds S IsEmpty n f.codec v) :
    ∃ t, entryValue merge f s v = .ok t ∧ entryValue (total merge') f s v = .ok t ∧ EntryHolds S n f keyCodec t := by
  cases v
  case scalar x =>
    unfold entryValue
    dsimp only
    split
    case isTrue => exact ⟨_, rfl, rfl, hs.key, hs.value⟩
    case isFalse hu => exact ⟨_, rfl, rfl, hs.key, hv (Bool.eq_false_iff.mpr hu)⟩
  case message c =>
    have hc := hv rfl
    unfold entryValue
    cases hsv : s.value
    case scalar => exact ⟨_, rfl, rfl, hs.key, hc⟩
    case message c' =>
      dsimp only
      split
      case isFalse => exact ⟨_, rfl, rfl, hs.key, hc⟩
      have hcodec := Value.acceptedBy_message_iff.mp (hsv ▸ hs.value.accepted)
      have hcls := Codec.message.inj <| (Value.acceptedBy_message_iff.mp hc.accepted).symm.trans hcodec
      have h := hA IsEmpty c' c (fun _ => rfl) (hs.value.typed c' hsv) (hc.typed c rfl) hcls
      refine ⟨_, by rw [h.eq]; rfl, rfl, hs.key, Value.acceptedBy_message_iff.mpr (h.cls.symm ▸ hcodec), ?_⟩
      rintro _ ⟨⟩
      exact h.typed

include hA in
theorem readEntryField_eq {s : EntryState} (hs : EntryHolds S n f keyCodec s) :
    readEntryField decode merge f keyCodec s i = readEntryField decode (total merge') f keyCodec s i := by
  refine Reader.bind_congr rfl fun t rest _ => ?_
  dsimp only
  split
  case isTrue => rfl
  split
  · refine Reader.bind_congr rfl fun v rest hv => ?_
    obtain ⟨t, h, h', _⟩ := entryValue_spec hA hs (readValue_holds hD hv)
    rw [h, h']
  · rfl

omit hD in
theorem raises_entryValue {s : EntryState} {v : Value Message} :
    (liftM (entryValue (total merge') f s v) : BinaryReader EntryState).Raises IsDecodeError := by
  refine .lift fun e h => ?_
  unfold entryValue at h
  split at h
  case h_1 => split at h <;> cases h
  case h_2 => split at h <;> cases h
  case h_3 => cases h

variable (hk : keyCodec.isMapKey)
include hk

theorem raises_readEntryField {s : EntryState} :
    (readEntryField decode (total merge') f keyCodec s).Raises IsDecodeError := by
  refine raises_readTag.bind fun t => .ite ?_ <| .ite ?_ ?_
  · exact (Codec.raises_read (Codec.isMessage_of_isMapKey hk)).bind fun _ => .pure
  · exact (raises_readValue hD).bind fun _ => raises_entryValue
  · exact raises_skipValue.bind fun _ => .pure

include hA in
theorem readEntryField_holds {s t : EntryState} (hs : EntryHolds S n f keyCodec s)
    (h : readEntryField decode (total merge') f keyCodec s i = .ok (t, rest)) : EntryHolds S n f keyCodec t := by
  obtain ⟨⟨number, wireType⟩, j, _, h⟩ := Reader.bind_eq_ok_iff.mp h
  dsimp only at h
  split at h
  case isTrue =>
    obtain ⟨key, _, hr, ⟨⟩⟩ := Reader.bind_eq_ok_iff.mp h
    exact ⟨Codec.accepts_of_read_key hk hr, hs.value⟩
  split at h
  case isTrue =>
    obtain ⟨v, _, hv, h⟩ := Reader.bind_eq_ok_iff.mp h
    obtain ⟨t', -, ht', hh⟩ := entryValue_spec hA hs (readValue_holds hD hv)
    cases ht'.symm.trans (Reader.lift_eq_ok_iff.mp h).left
    exact hh
  obtain ⟨_, _, _, ⟨⟩⟩ := Reader.bind_eq_ok_iff.mp h
  exact ⟨hs.key, hs.value⟩

include hA in
theorem readEntry_spec {s : EntryState} (hs : EntryHolds S n f keyCodec s) :
    readEntry decode merge f keyCodec s i = readEntry decode (total merge') f keyCodec s i ∧
    (∀ e, readEntry decode (total merge') f keyCodec s i = .error e → e.IsDecodeError) ∧
    ∀ t, readEntry decode (total merge') f keyCodec s i = .ok t → EntryHolds S n f keyCodec t := by
  fun_induction readEntry decode (total merge') f keyCodec s i
  case case1 =>
    refine ⟨readEntry_nil, by simp, ?_⟩
    rintro _ ⟨⟩
    exact hs
  case case2 s i hi e he =>
    have h := readEntryField_eq hD hA hs (i := i)
    rw [he] at h
    rw [readEntry, if_neg hi]
    refine ⟨?_, fun e' h => ?_, by simp⟩
    · split
      case h_1 h' => rw [h] at h'; cases h'; rfl
      case h_2 h' => rw [h] at h'; cases h'
    · cases h
      exact raises_readEntryField hD hk i e he
  case case3 s i hi t rest he ih =>
    have h := readEntryField_eq hD hA hs (i := i)
    rw [he] at h
    obtain ⟨heq, hav, hh⟩ := ih (readEntryField_holds hD hA hk hs he)
    refine ⟨?_, hav, hh⟩
    rw [readEntry, if_neg hi]
    split
    case h_1 h' => rw [h] at h'; cases h'
    case h_2 h' => rw [h] at h'; cases h'; exact heq

include hA in
theorem decodeMapEntry_spec (hf : f.IsProtobuf) :
    decodeMapEntry decode merge f keyCodec i = decodeMapEntry decode (total merge') f keyCodec i ∧
    (∀ e, decodeMapEntry decode (total merge') f keyCodec i = .error e → e.IsDecodeError) ∧
    ∀ key v, decodeMapEntry decode (total merge') f keyCodec i = .ok (some (key, v)) →
      keyCodec.accepts key ∧ Holds S IsEmpty n f.codec v := by
  have hstart : EntryHolds S n f keyCodec (entryStart f keyCodec) :=
    ⟨Codec.accepts_default_of_isMapKey hk, holds_defaultValue hf⟩
  obtain ⟨heq, hav, hh⟩ := readEntry_spec hD hA hk (i := i) hstart
  unfold decodeMapEntry
  rw [heq]
  refine ⟨rfl, ?_⟩
  cases he : readEntry decode (total merge') f keyCodec (entryStart f keyCodec) i
  case error e =>
    refine ⟨?_, by simp⟩
    rintro _ ⟨⟩
    exact hav e he
  case ok s =>
    obtain ⟨hkey, hval⟩ := hh s he
    have hacc : keyCodec.accepts s.key && s.value.acceptedBy f.codec := by simp [hkey, hval.accepted]
    dsimp only
    rw [if_pos hacc]
    cases s.invalid
    case true => exact ⟨by simp, by simp⟩
    case false =>
      refine ⟨by simp, ?_⟩
      rintro key v ⟨⟩
      exact ⟨hkey, hval⟩

omit hk
include hA

section

variable (hf : f.IsProtobuf) {wireType : WireType}
include hf

theorem readMember_eq : readMember decode merge f wireType i = readMember decode (total merge') f wireType i := by
  unfold readMember
  cases hn : f.mapKeyCodec <;> dsimp only
  case some keyCodec =>
    split
    case isTrue => rfl
    refine Reader.bind_congr rfl fun payload rest _ => ?_
    rw [(decodeMapEntry_spec hD hA (hf.mapKey _ hn) hf).left]

theorem raises_readMember : (readMember decode (total merge') f wireType).Raises IsDecodeError := by
  unfold readMember
  cases hn : f.mapKeyCodec <;> dsimp only
  case some keyCodec =>
    refine .ite .pure <| raises_readBytes.bind fun payload i e h => ?_
    split at h
    case h_1 hd => cases h; exact (decodeMapEntry_spec hD hA (hf.mapKey _ hn) hf).right.left _ hd
    case h_2 => cases h
  case none =>
    split
    case isTrue hp =>
      have hm : ¬f.codec.isMessage := by
        cases hc : f.codec <;> simp_all [Codec.packable, Codec.isMessage]
      exact (raises_readPacked (Codec.raises_read hm)).bind fun _ => .pure
    case isFalse =>
      exact .ite .pure <| (raises_readValue hD).bind fun _ => .pure

theorem decodesEntries : DecodesEntries (·.TypedTo S IsEmpty n) decode merge' f := by
  intro c i key v hn h
  obtain ⟨hk, hv⟩ := (decodeMapEntry_spec hD hA (hf.mapKey _ hn) hf).right.right key v h
  exact ⟨hk, hv.accepted, hv.typed⟩

end

variable (hS : S.IsProtobuf) {c : ClassId} {number : Nat} {wireType : WireType}
include hS

theorem readRecordBody_eq : readRecordBody decode merge (S c) number wireType i =
    readRecordBody decode (total merge') (S c) number wireType i := by
  unfold readRecordBody
  rcases hk : (S c).memberOf number with _ | ⟨k, f⟩ <;> dsimp only
  case some =>
    have hf := hS (MessageClass.member?_of_memberOf hk).left
    exact Reader.bind_congr (readMember_eq hD hA hf) fun _ _ _ => rfl

theorem raises_readRecordBody : (readRecordBody decode (total merge') (S c) number wireType).Raises IsDecodeError := by
  unfold readRecordBody
  rcases hk : (S c).memberOf number with _ | ⟨k, f⟩ <;> dsimp only
  case none => exact raises_skipValue.bind fun _ => .pure
  have hf := hS (MessageClass.member?_of_memberOf hk).left
  refine (raises_readMember hD hA hf).bind fun d => ?_
  cases d
  case none => exact raises_skipValue.bind fun _ => .pure
  case some => exact .pure

theorem readRecord_eq : readRecord decode merge (S c) i = readRecord decode (total merge') (S c) i := by
  refine Reader.bind_congr (Reader.withRaw_congr ?_) fun _ _ _ => rfl
  exact Reader.bind_congr rfl fun _ _ _ => readRecordBody_eq hD hA hS

theorem raises_readRecord : (readRecord decode (total merge') (S c)).Raises IsDecodeError :=
  (raises_readTag.bind fun _ => raises_readRecordBody hD hA hS).withRaw.bind fun _ => .pure

theorem readRecord_valid {r : Record Message} {d : Decoded Message}
    (h : readRecord decode (total merge') (S c) i = .ok (r, rest)) (hr : r.decoded = some (k, f, d)) :
    (S c).member? k = some f ∧ ValidFor (·.TypedTo S IsEmpty n) f d ∧ f.number ≠ 0 ∧ f.number ≤ maxFieldNumber := by
  obtain ⟨⟨d', raw⟩, _, h, ⟨⟩⟩ := Reader.bind_eq_ok_iff.mp h
  cases hr
  obtain ⟨_, h⟩ := (streaming_readTag.bind fun _ => streaming_readRecordBody).raw h
  obtain ⟨⟨number, wireType⟩, _, ht, h⟩ := Reader.bind_eq_ok_iff.mp (h [])
  obtain ⟨hk, hn, hv⟩ := readRecordBody_valid hD.typed (fun hf => decodesEntries hD hA (hS hf)) h
  exact ⟨(MessageClass.member?_of_memberOf hk).left, hv, hn ▸ readTag_bounds ht⟩

end

section

variable (hA : Agrees S n merge merge') (hB : ∀ c, B (.empty c)) (hm : m.TypedTo S B (n + 1))
include hA hB hm

theorem appendPacked_succeeds (hf : (S m.cls).member? k = some f) (hn : f.mapKeyCodec = none) (hr : f.repeated)
    (h₀ : f.number ≠ 0) (hl : f.number ≤ maxFieldNumber) {s : Scalar} (hs : f.codec.read i = .ok (s, rest)) :
    Succeeds S B (n + 1) m (appendPacked merge k f m s) (Message.appendPacked k f m s) := by
  unfold appendPacked Message.appendPacked
  split
  case isTrue hu =>
    obtain ⟨tag, ht⟩ := BinaryWriter.writeTag_isOk h₀ hl f.codec.wireType
    obtain ⟨b, hb⟩ := Codec.write_isOk_of_closedEnumUnknown hu hs
    rw [ht, hb]
    exact ⟨rfl, rfl, hm.of_values rfl fun _ _ _ _ => .inl⟩
  case isFalse hu =>
    have hacc := Codec.accepts_of_read hs (by simpa using hu)
    exact append_succeeds hA hB hm hf hn hr ⟨hacc, by rintro _ ⟨⟩⟩

theorem storeDecoded_succeeds (hf : (S m.cls).member? k = some f) (h₀ : f.number ≠ 0)
    (hl : f.number ≤ maxFieldNumber) {raw : Bytes} {d : Decoded Message} (hd : ValidFor (·.TypedTo S IsEmpty n) f d) :
    Succeeds S B (n + 1) m (storeDecoded merge S m k f raw d)
      (Message.storeDecoded merge' (clone merge') S m k f raw d) := by
  rcases d with (_ | ⟨key, v⟩) | ss | v
  case entry.none => exact ⟨rfl, rfl, hm.of_values rfl fun _ _ _ _ => .inl⟩
  case entry.some =>
    obtain ⟨keyCodec, hn, hk, hv⟩ := hd
    simp only [storeDecoded, hn]
    exact setItem_succeeds hA hB hm hf hn hk ⟨hv.left, hv.right⟩
  case packed =>
    obtain ⟨hn, hr, -, hs⟩ := hd
    refine Succeeds.foldlM ss hm fun s h m' hc hm' => ?_
    obtain ⟨_, _, hread⟩ := hs s h
    exact appendPacked_succeeds hA hB hm' (hc ▸ hf) hn hr h₀ hl hread
  case value =>
    obtain ⟨hn, hv⟩ := hd
    simp only [storeDecoded, Message.storeDecoded]
    split
    case isTrue => exact ⟨rfl, rfl, hm.of_values rfl fun _ _ _ _ => .inl⟩
    case isFalse hu =>
      have hv := holds_of_readBy hv (by simpa using hu)
      split
      case isTrue hr => exact append_succeeds hA hB hm hf hn hr hv
      case isFalse hr =>
        have hc := cls_clearSelected (S := S) (m := m) (f := f)
        have h := storeSingular_succeeds hA hB (hm.clearSelected (f := f)) (hc ▸ hf) hn hr hv
        exact ⟨h.eq, h.cls.trans hc, h.typed⟩

theorem storeRecord_succeeds (hD : Decodes S n decode) (hS : S.IsProtobuf) {r : Record Message}
    (h : readRecord decode (total merge') (S m.cls) i = .ok (r, rest)) :
    Succeeds S B (n + 1) m (storeRecord merge S m r)
      (Message.storeRecord merge' (clone merge') S m r) := by
  unfold storeRecord Message.storeRecord
  rcases hr : r.decoded with _ | ⟨k, f, d⟩
  case none => exact ⟨rfl, rfl, hm.of_values rfl fun _ _ _ _ => .inl⟩
  case some =>
    obtain ⟨hf, hd, h₀, hl⟩ := readRecord_valid hD hA hS h hr
    exact storeDecoded_succeeds hA hB hm hf h₀ hl hd

theorem mergeRecords_spec (hD : Decodes S n decode) (hS : S.IsProtobuf) :
    mergeRecords decode merge S m i = result (Message.mergeRecords decode merge' (clone merge') S m i) ∧
    (∀ e, mergeRecords decode merge S m i = .error e → e.IsDecodeError) ∧
    ∀ m', mergeRecords decode merge S m i = .ok m' → m'.cls = m.cls ∧ m'.TypedTo S B (n + 1) := by
  fun_induction Message.mergeRecords decode merge' (clone merge') S m i
  case case1 =>
    rw [mergeRecords, if_pos rfl]
    refine ⟨rfl, by simp, ?_⟩
    rintro _ ⟨⟩
    exact ⟨rfl, hm⟩
  case case2 m i hi e he =>
    have h := readRecord_eq hD hA hS (c := m.cls) (i := i)
    rw [he] at h
    have hr : mergeRecords decode merge S m i = .error e := by
      rw [mergeRecords, if_neg hi]
      split
      case h_1 h' => rw [h] at h'; cases h'; rfl
      case h_2 h' => rw [h] at h'; cases h'
    rw [hr]
    refine ⟨rfl, ?_, by simp⟩
    rintro _ ⟨⟩
    exact raises_readRecord hD hA hS i e he
  case case3 m i hi r rest he ih =>
    have h := readRecord_eq hD hA hS (c := m.cls) (i := i)
    rw [he] at h
    have hs := storeRecord_succeeds hA hB hm hD hS he
    have hr : mergeRecords decode merge S m i =
        mergeRecords decode merge S (Message.storeRecord merge' (clone merge') S m r) rest := by
      rw [mergeRecords, if_neg hi]
      split
      case h_1 h' => rw [h] at h'; cases h'
      case h_2 h' => rw [h] at h'; cases h'; rw [hs.eq]; rfl
    rw [hr]
    obtain ⟨heq, hav, ht⟩ := ih hs.typed
    exact ⟨heq, hav, fun m' h => ⟨(ht m' h).left.trans hs.cls, (ht m' h).right⟩⟩

end

theorem mergeString_spec (hS : S.IsProtobuf) (hB : ∀ c, B (.empty c)) (hm : m.TypedTo S B n) :
    mergeString S n m i = result (Message.mergeString S n m i) ∧
    (∀ e, mergeString S n m i = .error e → e.IsDecodeError) ∧
    ∀ m', mergeString S n m i = .ok m' → m'.cls = m.cls ∧ m'.TypedTo S B n := by
  induction n generalizing m i B
  case zero =>
    refine ⟨rfl, ?_, by simp [mergeString]⟩
    rintro _ ⟨⟩
    trivial
  case succ n ih =>
    have h c b := ih (i := b) (fun _ => rfl) (.empty (c := c) (B := IsEmpty) fun _ => rfl)
    have hd : (fun c b => result (Message.mergeString S n (.empty c) b)) = fun c b => mergeString S n (.empty c) b :=
      funext fun c => funext fun b => (h c b).left.symm
    have hD : Decodes S n fun c b => mergeString S n (.empty c) b :=
      ⟨fun c b => (h c b).right.left, fun {c b m} hr => (h c b).right.right m hr⟩
    have hr := mergeRecords_spec mergeFrom_agrees hB hm hD hS (i := i)
    refine ⟨hr.left.trans ?_, hr.right⟩
    rw [← hd]
    rfl

inductive Consumed (decode : MessageDecoder)
    (merge : MessageMerger) (S : Schema) : Message → Bytes → Message → Prop
  | nil {m : Message} : Consumed decode merge S m [] m
  | record {m m₁ m' : Message} {r : Record Message} {rest : Bytes} :
    (readRecord decode merge (S m.cls)).Reads r.raw r → r.raw ≠ [] → storeRecord merge S m r = .ok m₁ →
    Consumed decode merge S m₁ rest m' → Consumed decode merge S m (r.raw ++ rest) m'

theorem consumed_of_mergeRecords {m' : Message} (h : mergeRecords decode merge S m i = .ok m') :
    Consumed decode merge S m i m' := by
  induction hl : i.length using Nat.strong_induction_on generalizing m i
  case h l ih =>
    rw [mergeRecords] at h
    split at h
    case isTrue hi =>
      cases h
      exact hi ▸ .nil
    split at h
    case h_1 => cases h
    case h_2 r rest hr =>
      obtain ⟨m₁, hs, h⟩ := Except.bind_eq_ok_iff.mp h
      have hlt := progress_readRecord _ _ _ hr
      obtain ⟨rfl, hread⟩ := reads_of_readRecord hr
      refine .record hread ?_ hs (ih _ (hl ▸ hlt) h rfl)
      rintro he
      simp [he] at hlt

-- Whatever the bytes are, they are consumed as records or `DecodeError` is raised.
theorem mergeFromString_consumed_or_decodeError (hS : S.IsProtobuf) (hm : m.WellTyped S) (payload : Bytes) :
    (∃ m' n, (S m.cls).nestingLimit = n + 1 ∧ mergeFromString S m payload = .ok (m', payload.length) ∧
      Consumed (fun c b => mergeString S n (.empty c) b) (mergeFrom S (n + 1)) S m payload m') ∨
    ∃ e : DecodeFailure, e.IsDecodeError ∧ mergeFromString S m payload = .error e := by
  obtain ⟨_, hav, _⟩ := mergeString_spec hS (fun _ => trivial) (hm (S m.cls).nestingLimit) (i := payload)
  unfold mergeFromString
  cases hr : mergeString S (S m.cls).nestingLimit m payload
  case error e => exact .inr ⟨e, hav e hr, rfl⟩
  case ok m' =>
    cases hn : (S m.cls).nestingLimit
    case zero => rw [hn] at hr; cases hr
    case succ n =>
      rw [hn] at hr
      exact .inl ⟨m', n, rfl, rfl, consumed_of_mergeRecords hr⟩

theorem mergeFromString_ages : (∃ m', mergeFromString ages (.empty 0) [0x0A, 0x02, 0x08, 0x01] = .ok (m', 4)) ∧
    ∃ e : DecodeFailure, e.IsDecodeError ∧ mergeFromString ages (.empty 0) [0x0A, 0x02, 0x08] = .error e := by
  have hS : ages.IsProtobuf := by
    intro c k f hf
    obtain ⟨_, rfl⟩ := member?_onlyField hf
    exact ⟨by rintro _ ⟨⟩, by rintro _ ⟨⟩; rfl⟩
  have hm : (Message.empty 0).WellTyped ages := fun n => .empty fun _ => trivial
  have hok : (mergeFromString ages (.empty 0) [0x0A, 0x02, 0x08, 0x01]).isOk := by decide +kernel
  have hcut : ¬(mergeFromString ages (.empty 0) [0x0A, 0x02, 0x08]).isOk := by decide +kernel
  constructor
  · rcases mergeFromString_consumed_or_decodeError hS hm [0x0A, 0x02, 0x08, 0x01] with h | h
    · obtain ⟨m', _, _, h, _⟩ := h
      exact ⟨m', h⟩
    · obtain ⟨e, _, h⟩ := h
      rw [h] at hok
      cases hok
  · rcases mergeFromString_consumed_or_decodeError hS hm [0x0A, 0x02, 0x08] with h | h
    · obtain ⟨m', _, _, h, _⟩ := h
      rw [h] at hcut
      exact absurd rfl hcut
    · exact h

end Raising

end Protos
