import PysdkModel.Protos.Theorems.Parse

namespace Protos

open Reader BinaryReader BinaryWriter

namespace Message

section

-- What is read as an unknown field does not depend on how nested messages are decoded, unless that fails.
variable {decode decode' : ClassId → Bytes → Except DecodeFailure Message}
  {merge merge' : MessageMerger} {f : Field} {keyCodec : Codec}
  {i rest rest' : Bytes}

theorem readMessage_rest {c : ClassId} {m m' : Message} (h : readMessage decode c i = .ok (m, rest))
    (h' : readMessage decode' c i = .ok (m', rest')) : rest = rest' := by
  obtain ⟨payload, r, hp, h⟩ := bind_eq_ok_iff.mp h
  obtain ⟨payload', r', hp', h'⟩ := bind_eq_ok_iff.mp h'
  cases hp.symm.trans hp'
  split at h
  case h_1 => cases h
  case h_2 =>
    split at h'
    case h_1 => cases h'
    case h_2 => cases h; cases h'; rfl

theorem readValue_agree {c : Codec} {v v' : Value Message} (h : readValue decode c i = .ok (v, rest))
    (h' : readValue decode' c i = .ok (v', rest')) : rest = rest' ∧ v.closedEnumUnknown c = v'.closedEnumUnknown c := by
  cases c
  case message =>
    obtain ⟨_, _, hm, ⟨⟩⟩ := bind_eq_ok_iff.mp h
    obtain ⟨_, _, hm', ⟨⟩⟩ := bind_eq_ok_iff.mp h'
    exact ⟨readMessage_rest hm hm', rfl⟩
  all_goals
    cases h.symm.trans h'
    exact ⟨rfl, rfl⟩

theorem invalid_entryValue {s t : EntryState} {v : Value Message} (h : entryValue merge f s v = .ok t) :
    t.invalid = (s.invalid || v.closedEnumUnknown f.codec) := by
  cases v
  case scalar x =>
    rw [Value.closedEnumUnknown]
    cases hc : f.codec.closedEnumUnknown x <;> simp only [entryValue, hc] at h <;> cases h <;> simp
  case message c =>
    rw [Value.closedEnumUnknown, Bool.or_false]
    cases hv : s.value <;> simp only [entryValue, hv] at h
    case scalar => cases h; rfl
    case message =>
      split at h
      · obtain ⟨_, _, ⟨⟩⟩ := Except.bind_eq_ok_iff.mp h; rfl
      · cases h; rfl

theorem readEntryField_agree {s s' t t' : EntryState} (hi : s.invalid = s'.invalid)
    (h : readEntryField decode merge f keyCodec s i = .ok (t, rest))
    (h' : readEntryField decode' merge' f keyCodec s' i = .ok (t', rest')) : rest = rest' ∧ t.invalid = t'.invalid := by
  obtain ⟨⟨number, wireType⟩, r, ht, h⟩ := bind_eq_ok_iff.mp h
  obtain ⟨_, _, ht', h'⟩ := bind_eq_ok_iff.mp h'
  cases ht.symm.trans ht'
  dsimp only at h h'
  split at h
  case isTrue hk =>
    rw [if_pos hk] at h'
    obtain ⟨_, _, hr, ⟨⟩⟩ := bind_eq_ok_iff.mp h
    obtain ⟨_, _, hr', ⟨⟩⟩ := bind_eq_ok_iff.mp h'
    cases hr.symm.trans hr'
    exact ⟨rfl, hi⟩
  case isFalse hk =>
    rw [if_neg hk] at h'
    split at h
    case isTrue hv =>
      rw [if_pos hv] at h'
      obtain ⟨_, _, hr, h⟩ := bind_eq_ok_iff.mp h
      obtain ⟨_, _, hr', h'⟩ := bind_eq_ok_iff.mp h'
      obtain ⟨h, rfl⟩ := lift_eq_ok_iff.mp h
      obtain ⟨h', rfl⟩ := lift_eq_ok_iff.mp h'
      obtain ⟨hrest, hu⟩ := readValue_agree hr hr'
      exact ⟨hrest, by rw [invalid_entryValue h, invalid_entryValue h', hi, hu]⟩
    case isFalse hv =>
      rw [if_neg hv] at h'
      obtain ⟨_, _, hr, ⟨⟩⟩ := bind_eq_ok_iff.mp h
      obtain ⟨_, _, hr', ⟨⟩⟩ := bind_eq_ok_iff.mp h'
      cases hr.symm.trans hr'
      exact ⟨rfl, rfl⟩

theorem readEntry_agree {s s' t t' : EntryState} (hi : s.invalid = s'.invalid)
    (h : readEntry decode merge f keyCodec s i = .ok t)
    (h' : readEntry decode' merge' f keyCodec s' i = .ok t') : t.invalid = t'.invalid := by
  fun_induction readEntry decode merge f keyCodec s i generalizing s'
  case case1 =>
    rw [readEntry_nil] at h'
    cases h
    cases h'
    exact hi
  case case2 he => cases h
  case case3 s i hne s₁ rest hr ih =>
    rw [readEntry, if_neg hne] at h'
    split at h'
    case h_1 => cases h'
    case h_2 s₁' rest' hr' =>
      obtain ⟨hrest, hi'⟩ := readEntryField_agree hi hr hr'
      exact ih hi' h (hrest ▸ h')

theorem decodeMapEntry_agree {payload : Bytes} {e e' : Option (Scalar × Value Message)}
    (h : decodeMapEntry decode merge f keyCodec payload = .ok e)
    (h' : decodeMapEntry decode' merge' f keyCodec payload = .ok e') : e.isNone = e'.isNone := by
  have hcases {decode merge e} (h : decodeMapEntry decode merge f keyCodec payload = .ok e) :
      ∃ s, readEntry decode merge f keyCodec (entryStart f keyCodec) payload = .ok s ∧ e.isNone = s.invalid := by
    unfold decodeMapEntry at h
    split at h
    case h_1 => cases h
    case h_2 s hs =>
      refine ⟨s, hs, ?_⟩
      split at h
      case isTrue hi => cases h; rw [hi]; rfl
      case isFalse hi =>
        split at h
        · cases h; simpa using hi
        · cases h
  have ⟨s, hs, he⟩ := hcases h
  have ⟨s', hs', he'⟩ := hcases h'
  rw [he, he', readEntry_agree rfl hs hs']

theorem readMember_agree {wireType : WireType} {d d' : Option (Decoded Message)}
    (h : readMember decode merge f wireType i = .ok (d, rest))
    (h' : readMember decode' merge' f wireType i = .ok (d', rest')) :
    rest = rest' ∧ d.map (Decoded.isUnknown f) = d'.map (Decoded.isUnknown f) := by
  unfold readMember at h h'
  cases hn : f.mapKeyCodec <;> simp only [hn] at h h'
  case some keyCodec =>
    split at h
    case isTrue hw =>
      rw [if_pos hw] at h'
      cases h
      cases h'
      exact ⟨rfl, rfl⟩
    case isFalse hw =>
      rw [if_neg hw] at h'
      obtain ⟨payload, r, hp, h⟩ := bind_eq_ok_iff.mp h
      obtain ⟨payload', r', hp', h'⟩ := bind_eq_ok_iff.mp h'
      cases hp.symm.trans hp'
      split at h
      case h_1 => cases h
      case h_2 e he =>
        split at h'
        case h_1 => cases h'
        case h_2 e' he' =>
          cases h
          cases h'
          exact ⟨rfl, congrArg some <| decodeMapEntry_agree he he'⟩
  case none =>
    split at h
    case isTrue hp =>
      rw [if_pos hp] at h'
      cases h.symm.trans h'
      exact ⟨rfl, rfl⟩
    case isFalse hp =>
      rw [if_neg hp] at h'
      split at h
      case isTrue hw =>
        rw [if_pos hw] at h'
        cases h
        cases h'
        exact ⟨rfl, rfl⟩
      case isFalse hw =>
        rw [if_neg hw] at h'
        obtain ⟨v, r, hv, ⟨⟩⟩ := bind_eq_ok_iff.mp h
        obtain ⟨v', r', hv', ⟨⟩⟩ := bind_eq_ok_iff.mp h'
        have ⟨hrest, hu⟩ := readValue_agree hv hv'
        exact ⟨hrest, congrArg some hu⟩

theorem readRecordBody_agree {c : MessageClass} {number : Nat} {wireType : WireType}
    {d d' : Option (Key × Field × Decoded Message)}
    (h : readRecordBody decode merge c number wireType i = .ok (d, rest))
    (h' : readRecordBody decode' merge' c number wireType i = .ok (d', rest')) :
    rest = rest' ∧ d.all (fun (_, f, d) => d.isUnknown f) = d'.all (fun (_, f, d) => d.isUnknown f) := by
  unfold readRecordBody at h h'
  cases hm : c.memberOf number <;> simp only [hm] at h h'
  case none =>
    cases h.symm.trans h'
    exact ⟨rfl, rfl⟩
  case some kf =>
    obtain ⟨k, f⟩ := kf
    obtain ⟨e, j, he, h⟩ := bind_eq_ok_iff.mp h
    obtain ⟨e', j', he', h'⟩ := bind_eq_ok_iff.mp h'
    obtain ⟨rfl, hu⟩ := readMember_agree he he'
    cases e <;> cases e' <;> simp only [Option.map_some, Option.map_none, reduceCtorEq, Option.some.injEq] at hu
    case none.none =>
      cases h.symm.trans h'
      exact ⟨rfl, rfl⟩
    case some.some =>
      cases h
      cases h'
      exact ⟨rfl, hu⟩

theorem readRecord_agree {c : MessageClass} {r r' : Record Message}
    (h : readRecord decode merge c i = .ok (r, rest)) (h' : readRecord decode' merge' c i = .ok (r', rest')) :
    rest = rest' ∧ r.isUnknown = r'.isUnknown := by
  have hcases {decode merge r rest} (h : readRecord decode merge c i = .ok (r, rest)) :
      ∃ number wireType j, readTag i = .ok ((number, wireType), j) ∧
        readRecordBody decode merge c number wireType j = .ok (r.decoded, rest) := by
    obtain ⟨⟨d, raw⟩, _, hd, ⟨⟩⟩ := bind_eq_ok_iff.mp h
    unfold Reader.withRaw at hd
    split at hd
    case h_1 => cases hd
    case h_2 hb =>
      cases hd
      obtain ⟨⟨number, wireType⟩, j, ht, hb⟩ := bind_eq_ok_iff.mp hb
      exact ⟨number, wireType, j, ht, hb⟩
  have ⟨number, wireType, j, ht, hb⟩ := hcases h
  have ⟨_, _, _, ht', hb'⟩ := hcases h'
  cases ht.symm.trans ht'
  exact readRecordBody_agree hb hb'

end

def Recorded (S : Schema) (c : ClassId) (x : Bytes) : Prop :=
  ∃ n, UnknownAt S n c x

def Readable (S : Schema) (n : Nat) (c : ClassId) (x : Bytes) : Prop :=
  ∃ r, readRecord (decodeNested S n) (total (mergeFrom S n)) (S c) x = .ok r

theorem Recorded.unknownAt {S : Schema} {n : Nat} {c : ClassId} {x : Bytes} (h : Recorded S c x)
    (hr : Readable S n c x) : UnknownAt S n c x := by
  have ⟨n', r', hr', hu⟩ := h
  have ⟨⟨r, rest⟩, hr⟩ := hr
  have ⟨hrest, hu'⟩ := readRecord_agree hr' hr
  exact ⟨r, hrest ▸ hr, hu' ▸ hu⟩

section

variable {S : Schema} {encode : Message → Except EncodeError Bytes} {deterministic : Bool} {m c : Message}
  {k : Key} {f : Field} {x : Bytes} {n : Nat}

theorem encode_of_writeValue {codec : Codec} (h : writeValue encode codec (.message c) = .ok x) :
    ∃ y, encode c = .ok y := by
  cases codec
  case message =>
    have ⟨y, hy, _⟩ := Except.bind_eq_ok_iff.mp h
    exact ⟨y, hy⟩
  all_goals cases h

theorem encode_of_writeField (h : writeField encode f (.message c) = .ok x) : ∃ y, encode c = .ok y := by
  obtain ⟨_, _, h⟩ := Except.bind_eq_ok_iff.mp h
  obtain ⟨_, hv, _⟩ := Except.bind_eq_ok_iff.mp h
  exact encode_of_writeValue hv

theorem encode_of_writeMember (hm : m.Local S) (hf : (S m.cls).member? k = some f) {s : Slot Message}
    (hs : m.values k = some s) (hc : s.Contains (.message c))
    (hp : (∃ w, s = .singular w) → f.hasPresence → m.present k)
    (h : writeMember encode deterministic m k f = .ok x) : ∃ y, encode c = .ok y := by
  have hfit := hm.fits hf hs
  cases s
  case map d =>
    obtain ⟨keyCodec, hn, _⟩ := hfit
    obtain ⟨key, hkey⟩ := hc
    have hi : m.mapItems k = d := by simp [mapItems, hs]
    rw [writeMember_map hn] at h
    obtain ⟨xs, hxs, _⟩ := Except.bind_eq_ok_iff.mp h
    have he : (key, .message c) ∈ writtenEntries deterministic (m.mapItems k) :=
      writtenEntries_perm.mem_iff.mpr <| FinMap.mem_entries_iff.mpr <| hi ▸ hkey
    obtain ⟨y, _, hy⟩ := (Except.mapM_eq_ok_iff.mp hxs).exists_right he
    obtain ⟨_, _, hy⟩ := Except.bind_eq_ok_iff.mp hy
    obtain ⟨_, _, hy⟩ := Except.bind_eq_ok_iff.mp hy
    obtain ⟨_, _, hy⟩ := Except.bind_eq_ok_iff.mp hy
    obtain ⟨_, hv, _⟩ := Except.bind_eq_ok_iff.mp hy
    exact encode_of_writeValue hv
  case repeated vs =>
    have hi : m.repeatedItems k = vs := by simp [repeatedItems, hs]
    have hc : .message c ∈ m.repeatedItems k := hi ▸ hc
    rcases writeMember_repeated_cases hfit.left hfit.right.left h with ⟨he, _⟩ | ⟨_, _, _, _, _, _, hb⟩ |
      ⟨_, xs, hxs, _⟩
    · rw [he] at hc
      cases hc
    · obtain ⟨xs, hxs, _⟩ := Except.bind_eq_ok_iff.mp hb
      obtain ⟨y, _, hy⟩ := (Except.mapM_eq_ok_iff.mp hxs).exists_right hc
      exact encode_of_writeValue hy
    · obtain ⟨y, _, hy⟩ := (Except.mapM_eq_ok_iff.mp hxs).exists_right hc
      exact encode_of_writeField hy
  case singular v =>
    have hc : .message c = v := hc
    subst hc
    have hr : f.repeated = false := by simpa using hfit.right.left
    have hw : m.Written k f (.message c) := ⟨hs, hp ⟨_, rfl⟩, fun _ => by simp [equalsDefault]⟩
    rw [writeMember_written hfit.left hr hw] at h
    exact encode_of_writeField h

theorem encode_of_serialize (hm : m.Local S) (h : serialize S deterministic (n + 1) m = .ok x)
    (hc : m.Observed S (.message c)) : ∃ y, serialize S deterministic n c = .ok y := by
  have ⟨k, f, s, hf, hs, hsc, hp⟩ := hc
  have ⟨_, xs, ys, hxs, hys, _⟩ := serialize_eq_ok_iff.mp h
  have hmem : ∃ z, writeMember (serialize S deterministic n) deterministic m k f = .ok z := by
    cases k
    case field number =>
      have hn := MessageClass.number_of_field? hf
      have hmem : f ∈ sortedFields (S m.cls) :=
        (List.perm_insertionSort ..).mem_iff.mpr <| MessageClass.mem_of_field? hf
      have ⟨z, _, hz⟩ := (Except.mapM_eq_ok_iff.mp hxs).exists_right hmem
      exact ⟨z, by rw [← hn]; exact hz⟩
    case extension number =>
      have ⟨e, he, hef⟩ := Option.map_eq_some_iff.mp hf
      have hn : e.number = number := by simpa using List.find?_some he
      have hmem : e ∈ sortedExtensions (S m.cls) :=
        (List.perm_insertionSort ..).mem_iff.mpr <| List.mem_of_find?_eq_some he
      have ⟨z, _, hz⟩ := (Except.mapM_eq_ok_iff.mp hys).exists_right hmem
      exact ⟨z, by rw [← hn, ← hef]; exact hz⟩
  have ⟨z, hz⟩ := hmem
  exact encode_of_writeMember hm hf hs hsc hp hz

end

inductive Within (S : Schema) : Nat → Message → Message → Prop
  | here {m} : Within S 0 m m
  | child {d m c x} : m.Observed S (.message c) → Within S d c x → Within S (d + 1) m x

theorem deep_of_serialize {S : Schema} {P : Nat → Message → Prop} {deterministic : Bool} {n : Nat} {m : Message}
    {x : Bytes} (hl : ∀ d c, Within S d m c → c.Local S) (hP : ∀ d c, Within S d m c → P (n - 1 - d) c)
    (h : serialize S deterministic n m = .ok x) : Deep S P n m := by
  induction n generalizing m x
  case zero => cases h
  case succ n ih =>
    refine ⟨hP 0 m .here, fun c hc => ?_⟩
    have ⟨y, hy⟩ := encode_of_serialize (hl 0 m .here) h hc
    refine ih (fun d e he => hl (d + 1) e (.child hc he)) (fun d e he => ?_) hy
    have hp := hP (d + 1) e (.child hc he)
    rwa [show n + 1 - 1 - (d + 1) = n - 1 - d by omega] at hp

-- The invariant of all messages: their dictionaries are consistent, and their unknown fields have been read
-- as such.
def WellFormed (S : Schema) (m : Message) : Prop :=
  ∀ d c, Within S d m c → c.Local S ∧ ∀ x ∈ c.unknownFields, Recorded S c.cls x

def Rereadable (S : Schema) (n : Nat) (m : Message) : Prop :=
  ∀ d c, Within S d m c → ∀ x ∈ c.unknownFields, Readable S (n - 1 - d) c.cls x

theorem sound_of_serialize {S : Schema} {deterministic : Bool} {n : Nat} {m : Message} {x : Bytes}
    (hm : m.WellFormed S) (hr : m.Rereadable S n) (h : serialize S deterministic n m = .ok x) :
    m.Sound S (UnknownAt S) n :=
  deep_of_serialize (fun d c hc => (hm d c hc).left)
    (fun d c hc => ⟨(hm d c hc).left, fun x hx => ((hm d c hc).right x hx).unknownAt (hr d c hc x hx)⟩) h

theorem Deep.within {S : Schema} {P : Nat → Message → Prop} {n d : Nat} {m c : Message} (h : Deep S P n m)
    (hc : Within S d m c) : P (n - 1 - d) c ∨ c = .empty c.cls := by
  induction hc generalizing n
  case here =>
    cases n
    case zero => exact .inr h
    case succ => exact .inl h.left
  case child d m c x ho _ ih =>
    cases n
    case zero =>
      obtain ⟨k, f, s, _, hv, _⟩ := ho
      rw [show m = .empty m.cls from h] at hv
      cases hv
    case succ n =>
      rw [show n + 1 - 1 - (d + 1) = n - 1 - d by omega]
      exact ih (h.right c ho)

theorem Sound.wellFormed {S : Schema} {n : Nat} {m : Message} (h : m.Sound S (UnknownAt S) n) :
    m.WellFormed S ∧ m.Rereadable S n := by
  refine ⟨fun d c hc => ?_, fun d c hc x hx => ?_⟩
  · rcases h.within hc with h | h
    · exact ⟨h.isLocal, fun x hx => ⟨_, h.unknown x hx⟩⟩
    · rw [h]
      exact ⟨.empty, nofun⟩
  · rcases h.within hc with h | h
    · have ⟨r, hr, _⟩ := h.unknown x hx
      exact ⟨_, hr⟩
    · rw [h] at hx
      cases hx

section

variable {S : Schema} (hS : S.Floatless) (hs : S.Separate)
include hS hs

theorem fromString_serializeToString {m : Message} {deterministic : Bool} {x : Bytes} (hm : m.WellFormed S)
    (hr : m.Rereadable S (S m.cls).nestingLimit) (hx : m.serializeToString S deterministic = .ok x) :
    ∃ m', fromString S m.cls x = .ok m' ∧ m'.SameContent S m := by
  have hx : serialize S deterministic (S m.cls).nestingLimit m = .ok x := hx
  have ⟨m', hm', _, hc⟩ := roundTrips hS hs m x (sound_of_serialize hm hr hx) hx
  exact ⟨m', hm', hc⟩

end

def mapField (c : ClassId) (keyCodec : Option Codec) : Field where
  protoName := [0x66]
  number := 1
  codec := .message c
  repeated := false
  packed := false
  explicitPresence := false
  required := false
  oneof := none
  defaultFactory := none
  mapKeyCodec := keyCodec
  immutable := false
  immutableOneof := false

def onlyField (f : Field) (limit : Nat) : MessageClass :=
  ⟨[f], [], limit, List.nodup_singleton _, List.nodup_nil⟩

def noFields (limit : Nat) : MessageClass :=
  ⟨[], [], limit, List.nodup_nil, List.nodup_nil⟩

def holder (limit : Nat) : Schema
  | 0 => onlyField (mapField 1 none) limit
  | 1 => onlyField (mapField 2 (some .int32)) limit
  | _ => noFields limit

def heldEntry : Bytes :=
  [0x0A, 0x06, 0x08, 0x01, 0x12, 0x00, 0x18, 0x00]

def held (limit : Nat) : Message :=
  (Message.empty 0).storeValue (holder limit) (.field 1) (mapField 1 none)
    (.message (mergeString (holder limit) 2 (.empty 1) heldEntry).1)

theorem member_holder {limit : Nat} {c : ClassId} {k : Key} {f : Field} (h : (holder limit c).member? k = some f) :
    ∃ c keyCodec, f = mapField c keyCodec := by
  unfold holder at h
  rcases k with n | n
  case field =>
    split at h
    all_goals have h := List.mem_of_find?_eq_some h
    · exact ⟨_, _, List.mem_singleton.mp h⟩
    · exact ⟨_, _, List.mem_singleton.mp h⟩
    · cases h
  case extension => split at h <;> cases h

theorem floatless_holder {limit : Nat} : (holder limit).Floatless := by
  intro c k f h
  obtain ⟨c, keyCodec, rfl⟩ := member_holder h
  exact ⟨nofun, nofun, rfl⟩

theorem separate_holder {limit : Nat} : (holder limit).Separate := by
  intro c e he
  unfold holder at he
  split at he <;> cases he

theorem sound_held {limit : Nat} : (held limit).Sound (holder limit) (UnknownAt (holder limit)) 3 := by
  have hparse : mergeString (holder limit) 2 (.empty 1) heldEntry =
    ((mergeString (holder limit) 2 (.empty 1) heldEntry).1, _) := rfl
  have ⟨hc, hs⟩ := mergeString_settled floatless_holder .empty hparse
  refine (storeValue_stores Local.empty.selects rfl).settled .empty rfl ⟨rfl, Bool.noConfusion, ?_⟩ ?_ |>.sound
  · exact decide_eq_true hc
  · rintro _ ⟨⟩
    exact hs

-- The value of the entry exceeds the limit once the entry is nested.
theorem fromString_serializeToString_held :
    (holder 2).Floatless ∧ (holder 2).Separate ∧ (held 2).WellFormed (holder 2) ∧
    ∃ x, (held 2).serializeToString (holder 2) false = .ok x ∧
      (fromString (holder 2) (held 2).cls x).toOption.isNone :=
  ⟨floatless_holder, separate_holder, sound_held.wellFormed.left,
    [0x0A, 0x08] ++ heldEntry, by decide +kernel, by decide +kernel⟩

theorem fromString_serializeToString_held_three :
    ∃ m, fromString (holder 3) (held 3).cls ([0x0A, 0x08] ++ heldEntry) = .ok m ∧
      m.SameContent (holder 3) (held 3) :=
  have hx : (held 3).serializeToString (holder 3) false = .ok ([0x0A, 0x08] ++ heldEntry) := by decide +kernel
  fromString_serializeToString floatless_holder separate_holder sound_held.wellFormed.left
    sound_held.wellFormed.right hx

section

variable {S : Schema} (hS : S.Floatless) (hs : S.Separate)
include hS hs

theorem mergeString_append {a b : Message} {d e : Bool} {x y : Bytes} {n : Nat} (hc : b.cls = a.cls)
    (ha : a.Sound S (UnknownAt S) n) (hb : b.Sound S (UnknownAt S) n) (hx : serialize S d n a = .ok x)
    (hy : serialize S e n b = .ok y) :
    ∃ m, mergeString S n (.empty a.cls) (x ++ y) = (m, none) ∧
      ∀ j, m.content S j = Content.merge S j (a.content S j) (b.content S j) := by
  cases n
  case zero => cases hx
  case succ n =>
    have hr {d} : RoundTrips S (UnknownAt S) n (serialize S d n) (decodeNested S n) (Sound S (UnknownAt S) n) :=
      roundTrips hS hs
    have ⟨m₁, hm₁, hset₁, hc₁⟩ := consumes_of_serialize hS hs hr (a := .empty a.cls) .empty ha rfl hx
    have hcls : m₁.cls = a.cls := congrArg Node.cls (hc₁ 1)
    have ⟨m₂, hm₂, _, hc₂⟩ := consumes_of_serialize hS hs hr hset₁ hb (hc.trans hcls.symm) hy
    refine ⟨m₂, mergeString_of_consumes (hm₁.trans hm₂), fun j => ?_⟩
    rw [hc₂ j, hc₁ j, content_merge_empty hS ha.left.isLocal]

omit hs in
theorem content_mergeFrom_copy {a b : Message} {n : Nat} (hc : b.cls = a.cls) (ha : a.Sound S (fun _ _ _ => True) n)
    (hb : b.Sound S (fun _ _ _ => True) n) (j : Nat) : (mergeFrom S n (copy S n a) b).content S j =
      Content.merge S j (a.content S j) (b.content S j) := by
  have ⟨hmerge, hcopy⟩ := merges_mergeFrom (U := fun _ _ _ => True) (n := n) hS
  have ⟨hset, hac⟩ := hcopy a ha
  have ⟨_, hm⟩ := hmerge _ b hset hb <| hc.trans (cls_eq_of_content (hac 1)).symm
  rw [hm j, hac j]

-- Bytes that follow one another are merged like the messages. The number of levels for which messages are
-- copied and merged is arbitrary if it suffices.
theorem fromString_append {a b : Message} {d e : Bool} {x y : Bytes} {n : Nat} (hc : b.cls = a.cls)
    (hn : (S a.cls).nestingLimit ≤ n) (ha : a.WellFormed S) (hb : b.WellFormed S)
    (hra : a.Rereadable S (S a.cls).nestingLimit) (hrb : b.Rereadable S (S a.cls).nestingLimit)
    (hx : a.serializeToString S d = .ok x) (hy : b.serializeToString S e = .ok y) :
    ∃ m, fromString S a.cls (x ++ y) = .ok m ∧ m.SameContent S (mergeFrom S n (copy S n a) b) := by
  have hx : serialize S d (S a.cls).nestingLimit a = .ok x := hx
  have hy : serialize S e (S a.cls).nestingLimit b = .ok y := hc ▸ hy
  have hsa := sound_of_serialize ha hra hx
  have hsb := sound_of_serialize hb hrb hy
  have ⟨m, hm, hcon⟩ := mergeString_append hS hs hc hsa hsb hx hy
  have hm : mergeFromString S (.empty a.cls) (x ++ y) = (m, none) := hm
  refine ⟨m, by rw [fromString, hm]; rfl, fun j => ?_⟩
  have hle {m : Message} (h : m.Sound S (UnknownAt S) (S a.cls).nestingLimit) : m.Sound S (fun _ _ _ => True) n :=
    h.le (fun h => ⟨h.isLocal, fun _ _ => trivial⟩) ⟨.empty, nofun⟩ hn
  rw [hcon j, content_mergeFrom_copy hS hc (hle hsa) (hle hsb)]

end

theorem fromString_append_held :
    (held 2).WellFormed (holder 2) ∧ (Message.empty 0).WellFormed (holder 2) ∧
    ∃ x y, (held 2).serializeToString (holder 2) false = .ok x ∧
      (Message.empty 0).serializeToString (holder 2) false = .ok y ∧
      (fromString (holder 2) 0 (x ++ y)).toOption.isNone := by
  have he : (Message.empty 0).Settled (holder 2) (UnknownAt (holder 2)) 2 := .empty
  refine ⟨sound_held.wellFormed.left, he.sound.wellFormed.left, [0x0A, 0x08] ++ heldEntry, [], ?_, ?_, ?_⟩
  all_goals decide +kernel

theorem fromString_append_held_three :
    ∃ m, fromString (holder 3) (held 3).cls (([0x0A, 0x08] ++ heldEntry) ++ ([0x0A, 0x08] ++ heldEntry)) = .ok m ∧
      m.SameContent (holder 3) (mergeFrom (holder 3) 3 (copy (holder 3) 3 (held 3)) (held 3)) := by
  have hx : (held 3).serializeToString (holder 3) false = .ok ([0x0A, 0x08] ++ heldEntry) := by decide +kernel
  have hl : (holder 3 (held 3).cls).nestingLimit = 3 := rfl
  have ⟨hm, hr⟩ := sound_held.wellFormed (m := held 3)
  rw [← hl] at hr
  exact fromString_append floatless_holder separate_holder rfl hl.le hm hm hr hr hx hx

end Message

end Protos
