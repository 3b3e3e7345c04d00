import PysdkModel.Protos.Theorems.Decode

-- Whatever is parsed, the messages satisfy the invariants of messages.

namespace Protos

open Reader BinaryReader

theorem signed_bounds (bits : Nat) {v : Int} : -2 ^ bits ≤ signed v (bits + 1) ∧ signed v (bits + 1) < 2 ^ bits := by
  have hp : (2 : Int) ^ (bits + 1) = 2 * 2 ^ bits := pow_succ' ..
  have hpos : (0 : Int) < 2 ^ bits := by positivity
  have hl := Int.emod_nonneg v (show (2 : Int) ^ (bits + 1) ≠ 0 by positivity)
  have hh := Int.emod_lt_of_pos v (show (0 : Int) < 2 ^ (bits + 1) by positivity)
  simp only [signed, Nat.add_sub_cancel]
  split <;> omega

theorem readVarint_lt {i rest : Bytes} {n : Nat} (h : readVarint i = .ok (n, rest)) : n < 2 ^ 64 := by
  obtain ⟨v, _, _, ⟨⟩⟩ := bind_eq_ok_iff.mp h
  exact Nat.mod_lt _ (by positivity)

theorem readFixed_lt {width : Nat} {i rest : Bytes} {n : Nat} (h : readFixed width i = .ok (n, rest)) :
    n < 0x100 ^ width := by
  obtain ⟨x, _, hx, ⟨⟩⟩ := bind_eq_ok_iff.mp h
  unfold readExact Reader.exact at hx
  split at hx
  case isTrue => cases hx
  case isFalse hw =>
    cases hx
    have hl : (i.take width).length = width := List.length_take_of_le (by omega)
    have hd := LittleEndian.decode_lt (i := i.take width)
    rwa [hl] at hd

attribute [local simp] Codec.accepts

theorem Codec.accepts_of_read {c : Codec} {i rest : Bytes} {s : Scalar} (h : c.read i = .ok (s, rest))
    (hu : c.closedEnumUnknown s = false) : c.accepts s := by
  cases c
  case message => cases h
  case bool | float | double | bytes | string =>
    obtain ⟨_, _, _, ⟨⟩⟩ := bind_eq_ok_iff.mp h
    rfl
  case int32 | sint32 | sfixed32 =>
    obtain ⟨_, _, hv, ⟨⟩⟩ := bind_eq_ok_iff.mp h
    obtain ⟨v, _, _, ⟨⟩⟩ := bind_eq_ok_iff.mp hv
    simpa using signed_bounds 31
  case int64 | sint64 | sfixed64 =>
    obtain ⟨_, _, hv, ⟨⟩⟩ := bind_eq_ok_iff.mp h
    obtain ⟨v, _, _, ⟨⟩⟩ := bind_eq_ok_iff.mp hv
    simpa using signed_bounds 63
  case uint32 =>
    obtain ⟨_, _, hv, ⟨⟩⟩ := bind_eq_ok_iff.mp h
    obtain ⟨v, _, _, ⟨⟩⟩ := bind_eq_ok_iff.mp hv
    simp
    omega
  case uint64 =>
    obtain ⟨_, _, hv, ⟨⟩⟩ := bind_eq_ok_iff.mp h
    obtain ⟨v, _, hv, ⟨⟩⟩ := bind_eq_ok_iff.mp hv
    have := readVarint_lt hv
    simp
    omega
  case fixed32 | fixed64 =>
    obtain ⟨_, _, hv, ⟨⟩⟩ := bind_eq_ok_iff.mp h
    obtain ⟨v, _, hv, ⟨⟩⟩ := bind_eq_ok_iff.mp hv
    have := readFixed_lt hv
    simp
    omega
  case enum e =>
    obtain ⟨_, _, hv, ⟨⟩⟩ := bind_eq_ok_iff.mp h
    obtain ⟨v, _, _, ⟨⟩⟩ := bind_eq_ok_iff.mp hv
    have hb := signed_bounds 31 (v := v)
    rw [Codec.closedEnumUnknown] at hu
    simp only [Codec.accepts, hu, Bool.not_false, Bool.and_true]
    simpa using hb

theorem MessageClass.member?_of_memberOf {c : MessageClass} {number : Nat} {k : Key} {f : Field}
    (h : c.memberOf number = some (k, f)) : c.member? k = some f ∧ f.number = number := by
  unfold memberOf at h
  split at h
  case h_1 f' hf =>
    cases h
    exact ⟨hf, number_of_field? hf⟩
  case h_2 e _ he =>
    cases h
    have hn : e.number = number := by simpa using List.find?_some he
    exact ⟨by simp [member?, he], hn⟩
  case h_3 => cases h

theorem mem_readPackedValues {α : Type} {read : BinaryReader α} {size : Nat} {i rest : Bytes} {vs : List α}
    (h : readPackedValues read size i = .ok (vs, rest)) : ∀ v ∈ vs, ∃ j rest', read j = .ok (v, rest') := by
  induction size using Nat.strong_induction_on generalizing i vs rest
  case h size ih =>
    rw [readPackedValues] at h
    split at h
    case isTrue =>
      cases h
      exact fun _ h => absurd h List.not_mem_nil
    obtain ⟨⟨v, raw⟩, j, hv, h⟩ := bind_eq_ok_iff.mp h
    dsimp only at h
    split at h
    case isFalse => cases h
    case isTrue hl =>
      obtain ⟨ws, _, hws, ⟨⟩⟩ := bind_eq_ok_iff.mp h
      intro w hw
      rcases List.mem_cons.mp hw with rfl | hw
      · unfold Reader.withRaw at hv
        split at hv
        case h_1 => cases hv
        case h_2 hr => cases hv; exact ⟨i, _, hr⟩
      · exact ih _ (by omega) hws w hw

namespace Message

variable {S : Schema} {U : Unknowns} {n : Nat} {decode : MessageDecoder}
  {merge : Message → Message → Message} {copy : Message → Message} {m : Message} {k : Key} {f : Field}
  {keyCodec : Codec} {i rest : Bytes}

def Decodes (P : Message → Prop) (decode : MessageDecoder) : Prop :=
  ∀ {c b m}, decode c b = .ok m → m.cls = c ∧ P m

structure ReadBy (P : Message → Prop) (c : Codec) (v : Value Message) : Prop where
  accepted : v.closedEnumUnknown c = false → v.acceptedBy c
  message : ∀ d, v = .message d → P d

variable {P : Message → Prop} {v : Value Message}

theorem readValue_readBy (hd : Decodes P decode) {c : Codec} (h : readValue decode c i = .ok (v, rest)) :
    ReadBy P c v := by
  cases c
  case message c =>
    obtain ⟨d, _, hr, ⟨⟩⟩ := bind_eq_ok_iff.mp h
    obtain ⟨payload, _, _, hr⟩ := bind_eq_ok_iff.mp hr
    split at hr
    case h_1 => cases hr
    case h_2 hdec =>
      cases hr
      obtain ⟨hc, hs⟩ := hd hdec
      refine ⟨fun _ => by simpa [Value.acceptedBy] using hc, ?_⟩
      rintro _ ⟨⟩
      exact hs
  all_goals
    obtain ⟨s, _, hr, ⟨⟩⟩ := bind_eq_ok_iff.mp h
    exact ⟨Codec.accepts_of_read hr, by rintro _ ⟨⟩⟩

def EntryState.Settled (S : Schema) (U : Unknowns) (n : Nat) (f : Field) (s : EntryState) : Prop :=
  ∀ d, s.value = .message d → d.Settled S U n ∧ f.codec = .message d.cls

theorem ReadBy.codec_eq {d : Message} (h : ReadBy P f.codec v) (hv : v = .message d) :
    f.codec = .message d.cls := by
  subst hv
  have ha := h.accepted rfl
  cases hc : f.codec <;> simp [hc, Value.acceptedBy] at ha
  rw [ha]

theorem entryValue_settled (hm : Merges S U n merge) {s t : EntryState} (hs : s.Settled S U n f)
    (hv : ReadBy (·.Settled S U n) f.codec v) (h : entryValue (total merge) f s v = .ok t) : t.Settled S U n f := by
  intro d hd
  cases v
  case scalar x =>
    simp only [entryValue] at h
    split at h <;> cases h
    · exact hs d hd
    · cases hd
  case message c =>
    have hc : c.Settled S U n ∧ f.codec = .message c.cls := ⟨hv.message c rfl, hv.codec_eq rfl⟩
    cases hsv : s.value <;> simp only [entryValue, hsv] at h
    case scalar =>
      cases h
      cases hd
      exact hc
    case message c' =>
      split at h <;> cases h <;> cases hd
      case isFalse => exact hc
      obtain ⟨hs', hc'⟩ := hs c' hsv
      have hcls : c.cls = c'.cls := by rw [hc'] at hc; exact Codec.message.inj hc.right.symm
      obtain ⟨hset, hcon⟩ := hm c' c hs' hc.left.sound hcls
      have hmc : (merge c' c).cls = c'.cls := congrArg Node.cls (hcon 1)
      exact ⟨hset, hmc ▸ hc'⟩

theorem readEntryField_settled (hd : Decodes (·.Settled S U n) decode) (hm : Merges S U n merge) {s t : EntryState}
    (hs : s.Settled S U n f) (h : readEntryField decode (total merge) f keyCodec s i = .ok (t, rest)) :
    t.Settled S U n f := by
  obtain ⟨⟨number, wireType⟩, j, _, h⟩ := bind_eq_ok_iff.mp h
  dsimp only at h
  split at h
  case isTrue =>
    obtain ⟨_, _, _, ⟨⟩⟩ := bind_eq_ok_iff.mp h
    exact hs
  split at h
  case isTrue =>
    obtain ⟨v, _, hv, h⟩ := bind_eq_ok_iff.mp h
    exact entryValue_settled hm hs (readValue_readBy hd hv) (lift_eq_ok_iff.mp h).left
  obtain ⟨_, _, _, ⟨⟩⟩ := bind_eq_ok_iff.mp h
  exact hs

theorem readEntry_settled (hd : Decodes (·.Settled S U n) decode) (hm : Merges S U n merge) {s t : EntryState}
    (hs : s.Settled S U n f) (h : readEntry decode (total merge) f keyCodec s i = .ok t) : t.Settled S U n f := by
  fun_induction readEntry decode (total merge) f keyCodec s i
  case case1 =>
    cases h
    exact hs
  case case2 => cases h
  case case3 hr ih => exact ih (readEntryField_settled hd hm hs hr) h

def DecodesEntries (P : Message → Prop) (decode : MessageDecoder)
    (merge : Message → Message → Message) (f : Field) : Prop :=
  ∀ {c i key v}, f.mapKeyCodec = some c → decodeMapEntry decode (total merge) f c i = .ok (some (key, v)) →
    c.accepts key ∧ v.acceptedBy f.codec ∧ ∀ d, v = .message d → P d

theorem decodeMapEntry_settled (hd : Decodes (·.Settled S U n) decode) (hm : Merges S U n merge) :
    DecodesEntries (·.Settled S U n) decode merge f := by
  intro c i key v _ h
  have hstart : (entryStart f c).Settled S U n f := by
    intro d hd
    cases hc : f.codec <;> simp only [entryStart, hc, Codec.defaultValue, reduceCtorEq, Value.message.injEq] at hd
    subst hd
    exact ⟨.empty, rfl⟩
  unfold decodeMapEntry at h
  split at h
  case h_1 => cases h
  case h_2 s hs =>
    split at h
    case isTrue => cases h
    split at h
    case isFalse => cases h
    case isTrue ha =>
      cases h
      obtain ⟨hk, hv⟩ := Bool.and_eq_true_iff.mp ha
      exact ⟨hk, hv, fun d h => (readEntry_settled hd hm hstart hs d h).left⟩

def ValidFor (P : Message → Prop) (f : Field) : Decoded Message → Prop
  | .entry none => True
  | .entry (some (key, v)) => ∃ keyCodec, f.mapKeyCodec = some keyCodec ∧ keyCodec.accepts key ∧
    v.acceptedBy f.codec ∧ ∀ d, v = .message d → P d
  | .packed ss => f.mapKeyCodec = none ∧ f.repeated ∧ f.codec.packable ∧ ∀ s ∈ ss,
    ∃ j rest, f.codec.read j = .ok (s, rest)
  | .value v => f.mapKeyCodec = none ∧ ReadBy P f.codec v

theorem readMember_valid (hd : Decodes P decode) (hm : DecodesEntries P decode merge f) {wireType : WireType}
    {d : Decoded Message} (h : readMember decode (total merge) f wireType i = .ok (some d, rest)) : ValidFor P f d := by
  unfold readMember at h
  cases hn : f.mapKeyCodec <;> simp only [hn] at h
  case some keyCodec =>
    split at h
    case isTrue => cases h
    obtain ⟨payload, j, _, h⟩ := bind_eq_ok_iff.mp h
    split at h
    case h_1 => cases h
    case h_2 e he =>
      cases h
      cases e
      case none => trivial
      case some => exact ⟨keyCodec, hn, hm hn he⟩
  case none =>
    split at h
    case isTrue hp =>
      obtain ⟨ss, _, hss, ⟨⟩⟩ := bind_eq_ok_iff.mp h
      obtain ⟨size, j, _, hss⟩ := bind_eq_ok_iff.mp hss
      split at hss
      case isTrue => cases hss
      simp only [Bool.and_eq_true] at hp
      exact ⟨hn, hp.left.left, hp.left.right, mem_readPackedValues hss⟩
    split at h
    case isTrue => cases h
    obtain ⟨v, _, hv, ⟨⟩⟩ := bind_eq_ok_iff.mp h
    exact ⟨hn, readValue_readBy hd hv⟩

section

variable (hU : ∀ {c x}, ReadsUnknown decode merge (S c) x → U n c x) (hm : m.Settled S U (n + 1))
  (hk : (S m.cls).memberOf f.number = some (k, f))
include hU hm hk

theorem Settled.appendPacked (hn : f.mapKeyCodec = none) (hr : f.repeated) (hp : f.codec.packable) {s : Scalar}
    (hs : f.codec.closedEnumUnknown s = false → f.codec.accepts s) :
    (appendPacked k f m s).cls = m.cls ∧ (appendPacked k f m s).Settled S U (n + 1) := by
  have ⟨hf, _⟩ := MessageClass.member?_of_memberOf hk
  unfold Message.appendPacked
  split
  case isFalse hu =>
    refine ⟨rfl, hm.extend hf hn hr ?_ (by simp)⟩
    simpa [Value.acceptedBy] using hs (by simpa using hu)
  case isTrue hu =>
    split
    case h_2 => exact ⟨rfl, hm⟩
    case h_1 tag value ht hv =>
      refine ⟨rfl, hm.addUnknown fun x hx => hU ?_⟩
      rw [List.mem_singleton.mp hx]
      -- The value is read again as one that is not packed.
      have hread : (readMember decode (total merge) f f.codec.wireType).Reads value (some (.value (.scalar s))) := by
        have hw : ¬(f.repeated && f.codec.packable && f.codec.wireType = .lengthDelimited) := by
          cases f.codec <;> simp [Codec.packable, Codec.wireType]
        unfold readMember
        rw [hn]
        dsimp only
        rw [if_neg hw, if_neg (by simp)]
        refine Reads.bind_nil ?_ Reads.pure
        cases hc : f.codec <;> rw [hc] at hv hp
        case message => cases hp
        all_goals exact (Codec.reads_of_write hv).bind_nil Reads.pure
      have hr := reads_readRecord hk ht hread []
      rw [List.append_nil] at hr
      exact ⟨_, hr, hu⟩

theorem Settled.foldl_appendPacked (hn : f.mapKeyCodec = none) (hr : f.repeated) (hp : f.codec.packable)
    {ss : List Scalar} (hs : ∀ s ∈ ss, f.codec.closedEnumUnknown s = false → f.codec.accepts s) :
    (ss.foldl (Message.appendPacked k f) m).cls = m.cls ∧
    (ss.foldl (Message.appendPacked k f) m).Settled S U (n + 1) := by
  induction ss generalizing m
  case nil => exact ⟨rfl, hm⟩
  case cons s ss ih =>
    have ⟨hs, hss⟩ := List.forall_mem_cons.mp hs
    have ⟨hc, hm⟩ := hm.appendPacked hU hk hn hr hp hs
    have ⟨hcs, hm⟩ := ih hm (hc ▸ hk) hss
    exact ⟨hcs.trans hc, hm⟩

theorem Settled.storeDecoded (hcopy : Copies S U n copy) (hmerge : Merges S U n merge) {d : Decoded Message}
    (hd : ValidFor (·.Settled S U n) f d) {raw : Bytes} (hraw : d.isUnknown f → U n m.cls raw) :
    (storeDecoded merge copy S m k f raw d).cls = m.cls ∧
    (storeDecoded merge copy S m k f raw d).Settled S U (n + 1) := by
  obtain ⟨hf, _⟩ := MessageClass.member?_of_memberOf hk
  rcases d with (_ | ⟨key, v⟩) | ss | v
  case entry.none =>
    refine ⟨rfl, hm.addUnknown fun x hx => ?_⟩
    rw [List.mem_singleton.mp hx]
    exact hraw rfl
  case entry.some =>
    obtain ⟨keyCodec, hn, hkey, hv, hs⟩ := hd
    have hlike := hcopy.like fun d h => (hs d h).sound
    exact ⟨rfl, hm.setEntry hf hn hkey (hlike.acceptedBy hv) hlike.settled⟩
  case packed =>
    obtain ⟨hn, hr, hp, hs⟩ := hd
    refine hm.foldl_appendPacked hU hk hn hr hp fun s h => ?_
    obtain ⟨_, _, hread⟩ := hs s h
    exact Codec.accepts_of_read hread
  case value =>
    obtain ⟨hn, hv⟩ := hd
    simp only [Message.storeDecoded]
    split
    case isTrue hu =>
      refine ⟨rfl, hm.addUnknown fun x hx => ?_⟩
      rw [List.mem_singleton.mp hx]
      exact hraw hu
    case isFalse hu =>
      have ha := hv.accepted (by simpa using hu)
      split
      case isTrue hr =>
        have hlike := hcopy.like fun d h => (hv.message d h).sound
        refine ⟨rfl, hm.extend hf hn hr (fun w hw => ?_)
          fun d hd => hlike.settled d (List.mem_singleton.mp hd).symm⟩
        rw [List.mem_singleton.mp hw]
        exact hlike.acceptedBy ha
      case isFalse hr =>
        have hsel := hm.left.isLocal.selects
        obtain ⟨hfit, hs, _⟩ := mergeValue_spec hcopy hmerge hm hf ⟨hn, hr, ha⟩ fun d h => (hv.message d h).sound
        rw [storeSingular, mergeValue_clearSelected hsel hf, storeValue_clearSelected hsel hf]
        have hst := storeValue_stores (w := mergeValue copy merge m k f v) hsel hf
        exact ⟨hst.cls, hst.settled hm hf hfit hs⟩

end

theorem readRecordBody_valid {c : MessageClass} (hd : Decodes P decode)
    (hm : ∀ {k f}, c.member? k = some f → DecodesEntries P decode merge f) {number : Nat} {wireType : WireType}
    {d : Decoded Message} (h : readRecordBody decode (total merge) c number wireType i = .ok (some (k, f, d), rest)) :
    c.memberOf f.number = some (k, f) ∧ f.number = number ∧ ValidFor P f d := by
  unfold readRecordBody at h
  rcases hk : c.memberOf number with _ | ⟨k, f⟩ <;> simp only [hk] at h
  case none =>
    obtain ⟨_, _, _, h⟩ := bind_eq_ok_iff.mp h
    cases h
  obtain ⟨d, _, hr, h⟩ := bind_eq_ok_iff.mp h
  cases d
  case none =>
    obtain ⟨_, _, _, h⟩ := bind_eq_ok_iff.mp h
    cases h
  case some d =>
    cases h
    obtain ⟨hf, hn⟩ := MessageClass.member?_of_memberOf hk
    exact ⟨hn ▸ hk, hn, readMember_valid hd (hm hf) hr⟩

theorem reads_of_readRecord {merge : MessageMerger} {c : MessageClass}
    {r : Record Message} (h : readRecord decode merge c i = .ok (r, rest)) :
    i = r.raw ++ rest ∧ (readRecord decode merge c).Reads r.raw r := by
  obtain ⟨⟨d, raw⟩, _, hr, ⟨⟩⟩ := bind_eq_ok_iff.mp h
  obtain ⟨hi, hr⟩ := (streaming_readTag.bind fun _ => streaming_readRecordBody).raw hr
  exact ⟨hi, hr.withRaw.bind_nil Reads.pure⟩

theorem Settled.storeRecord (hU : ∀ {c x}, ReadsUnknown decode merge (S c) x → U n c x)
    (hd : Decodes (·.Settled S U n) decode) (hcopy : Copies S U n copy) (hmerge : Merges S U n merge)
    (hm : m.Settled S U (n + 1)) {r : Record Message}
    (h : readRecord decode (total merge) (S m.cls) i = .ok (r, rest)) :
    (storeRecord merge copy S m r).cls = m.cls ∧ (storeRecord merge copy S m r).Settled S U (n + 1) := by
  have hraw (hu : r.isUnknown) : U n m.cls r.raw := by
    have hr := (reads_of_readRecord h).right []
    rw [List.append_nil] at hr
    exact hU ⟨r, hr, hu⟩
  obtain ⟨⟨d, raw⟩, _, hr, ⟨⟩⟩ := bind_eq_ok_iff.mp h
  rcases d with _ | ⟨k, f, d⟩
  case none =>
    refine ⟨rfl, hm.addUnknown fun x hx => ?_⟩
    rw [List.mem_singleton.mp hx]
    exact hraw rfl
  case some =>
    have ⟨_, hr⟩ := (streaming_readTag.bind fun _ => streaming_readRecordBody).raw hr
    obtain ⟨⟨number, wireType⟩, _, _, hr⟩ := bind_eq_ok_iff.mp (hr [])
    obtain ⟨hk, -, hv⟩ := readRecordBody_valid hd (fun _ => decodeMapEntry_settled hd hmerge) hr
    exact hm.storeDecoded hU hk hcopy hmerge hv hraw

theorem mergeRecords_settled (hU : ∀ {c x}, ReadsUnknown decode merge (S c) x → U n c x)
    (hd : Decodes (·.Settled S U n) decode) (hcopy : Copies S U n copy) (hmerge : Merges S U n merge)
    (hm : m.Settled S U (n + 1)) {m' : Message} {e : Option DecodeFailure}
    (h : mergeRecords decode merge copy S m i = (m', e)) : m'.cls = m.cls ∧ m'.Settled S U (n + 1) := by
  fun_induction mergeRecords decode merge copy S m i
  case case1 =>
    cases h
    exact ⟨rfl, hm⟩
  case case2 =>
    cases h
    exact ⟨rfl, hm⟩
  case case3 m i _ r rest hr ih =>
    have ⟨hc, hm⟩ := hm.storeRecord hU hd hcopy hmerge hr
    have ⟨hcs, hm⟩ := ih hm h
    exact ⟨hcs.trans hc, hm⟩

theorem mergeString_settled (hS : S.Floatless) {m' : Message} {e : Option DecodeFailure}
    (hm : m.Settled S (UnknownAt S) n) (h : mergeString S n m i = (m', e)) :
    m'.cls = m.cls ∧ m'.Settled S (UnknownAt S) n := by
  induction n generalizing m m' i e
  case zero =>
    cases h
    exact ⟨rfl, hm⟩
  case succ n ih =>
    have hd : Decodes (·.Settled S (UnknownAt S) n) (decodeNested S n) := by
      intro c b m hb
      cases hr : mergeString S n (.empty c) b with | mk m'' e =>
      rw [decodeNested, hr] at hb
      cases e <;> cases hb
      exact ih .empty hr
    have hmerge : Merges S (UnknownAt S) n (mergeFrom S n) ∧ Copies S (UnknownAt S) n (copy S n) :=
      merges_mergeFrom hS
    exact mergeRecords_settled id hd hmerge.right hmerge.left hm h

end Message

end Protos
