import PysdkModel.Protos.Decode
import PysdkModel.Protos.Serialize
import PysdkModel.Protos.Theorems.Merge

namespace Protos

open Reader BinaryReader BinaryWriter

def Schema.Separate (S : Schema) : Prop :=
  ∀ c, ∀ e ∈ (S c).extensions, (S c).field? e.number = none

namespace MessageClass

variable {c : MessageClass} {k : Key} {f : Field}

theorem memberOf_of_member? (hs : ∀ e ∈ c.extensions, c.field? e.number = none)
    (hf : c.member? k = some f) : c.memberOf f.number = some (k, f) := by
  cases k
  case field n =>
    have hf : c.field? n = some f := hf
    simp [memberOf, number_of_field? hf, hf]
  case extension n =>
    have ⟨e, he, hef⟩ := Option.map_eq_some_iff.mp hf
    have hn : e.number = n := by simpa using List.find?_some he
    have hfn : f.number = n := by simp [← hef, Extension.field, hn]
    have hnone : c.field? n = none := hn ▸ hs e (List.mem_of_find?_eq_some he)
    simp [memberOf, hfn, hnone, he, hef]

end MessageClass

namespace Message

variable {S : Schema} {U : Unknowns} {n : Nat} {encode : Message → Except EncodeError Bytes}
  {decode : MessageDecoder} {copy : Message → Message}
  {merge : Message → Message → Message} {P : Message → Prop} {m : Message} {k : Key} {f : Field}

def RoundTrips (S : Schema) (U : Unknowns) (n : Nat) (encode : Message → Except EncodeError Bytes)
    (decode : MessageDecoder) (P : Message → Prop) : Prop :=
  ∀ c b, P c → encode c = .ok b →
    ∃ d, decode c.cls b = .ok d ∧ d.Settled S U n ∧ ∀ j, d.content S j = c.content S j

variable {v : Value Message}

theorem reads_of_writeValue (hr : RoundTrips S U n encode decode P) {c : Codec} {b : Bytes}
    (hv : v.acceptedBy c) (hP : ∀ d, v = .message d → P d) (h : writeValue encode c v = .ok b) :
    ∃ w, (readValue decode c).Reads b w ∧ v.Like S U n w := by
  cases v
  case scalar s =>
    refine ⟨.scalar s, ?_, fun _ => rfl, by rintro _ ⟨⟩⟩
    cases c
    case message => simp [Value.acceptedBy, Codec.accepts] at hv
    all_goals exact (Codec.reads_of_write h).bind_nil Reads.pure
  case message d =>
    cases c <;> simp only [Value.acceptedBy, Bool.false_eq_true, decide_eq_true_eq] at hv
    case message c =>
      subst hv
      obtain ⟨x, hx, hb⟩ := Except.bind_eq_ok_iff.mp h
      obtain ⟨d', hd', hs, hc⟩ := hr d x (hP d rfl) hx
      refine ⟨.message d', fun rest => ?_, fun j => congrArg Value.message (hc j), ?_⟩
      · simp only [readValue, readMessage, Reader.bind_eq, reads_of_writeBytes hb rest, hd']
        rfl
      · rintro _ ⟨⟩
        exact hs

variable {tag : Bytes}

theorem reads_readRecord {c : MessageClass} {wireType : WireType} {body : Bytes} {d : Decoded Message}
    (hm : c.memberOf f.number = some (k, f)) (ht : writeTag f.number wireType = .ok tag)
    (hb : (readMember decode (total merge) f wireType).Reads body (some d)) :
    (readRecord decode (total merge) c).Reads (tag ++ body) ⟨tag ++ body, some (k, f, d)⟩ := by
  have hbody : (readRecordBody decode (total merge) c f.number wireType).Reads body (some (k, f, d)) := by
    unfold readRecordBody
    rw [hm]
    exact hb.bind_nil Reads.pure
  exact (((reads_of_writeTag ht).bind hbody).withRaw).bind_nil Reads.pure

def Consumes (decode : MessageDecoder) (merge : Message → Message → Message)
    (copy : Message → Message) (S : Schema) (m : Message) (x : Bytes) (m' : Message) : Prop :=
  ∀ rest, mergeRecords decode merge copy S m (x ++ rest) = mergeRecords decode merge copy S m' rest

theorem mergeRecords_nil : mergeRecords decode merge copy S m [] = (m, none) := by
  rw [mergeRecords, if_pos rfl]

variable {r : Record Message}

theorem mergeRecords_of_ok {i rest : Bytes} (hi : i ≠ [])
    (h : readRecord decode (total merge) (S m.cls) i = .ok (r, rest)) : mergeRecords decode merge copy S m i =
      mergeRecords decode merge copy S (storeRecord merge copy S m r) rest := by
  rw [mergeRecords, if_neg hi]
  split
  case h_1 he => rw [h] at he; cases he
  case h_2 he => rw [h] at he; cases he; rfl

namespace Consumes

variable {x y : Bytes} {m' m'' : Message}

theorem refl : Consumes decode merge copy S m [] m :=
  fun _ => rfl

theorem trans (h : Consumes decode merge copy S m x m') (h' : Consumes decode merge copy S m' y m'') :
    Consumes decode merge copy S m (x ++ y) m'' := by
  intro rest
  rw [List.append_assoc, h, h']

theorem record (hx : x ≠ []) (h : (readRecord decode (total merge) (S m.cls)).Reads x r) :
    Consumes decode merge copy S m x (storeRecord merge copy S m r) :=
  fun rest => mergeRecords_of_ok (List.append_ne_nil_of_left_ne_nil hx rest) (h rest)

end Consumes

theorem consumes_member (hs : S.Separate) (hf : (S m.cls).member? k = some f) {wireType : WireType}
    {body : Bytes} {d : Decoded Message} (ht : writeTag f.number wireType = .ok tag)
    (hb : (readMember decode (total merge) f wireType).Reads body (some d)) :
    Consumes decode merge copy S m (tag ++ body) (storeDecoded merge copy S m k f (tag ++ body) d) := by
  have hne : tag ++ body ≠ [] := List.append_ne_nil_of_left_ne_nil (ne_nil_of_writeTag ht) body
  exact Consumes.record hne <| reads_readRecord (MessageClass.memberOf_of_member? (hs _) hf) ht hb

section

variable (merge) (hr : RoundTrips S U n encode decode P) {v : Value Message}
include hr

theorem reads_readMember (hn : f.mapKeyCodec = none) (hv : v.acceptedBy f.codec)
    (hP : ∀ d, v = .message d → P d) {b : Bytes} (h : writeValue encode f.codec v = .ok b) :
    ∃ w, (readMember decode (total merge) f f.codec.wireType).Reads b (some (.value w)) ∧ v.Like S U n w := by
  have ⟨w, hw, hlike⟩ := reads_of_writeValue hr hv hP h
  have hp : ¬(f.repeated && f.codec.packable && f.codec.wireType = .lengthDelimited) := by
    cases f.codec <;> simp [Codec.packable, Codec.wireType]
  refine ⟨w, ?_, hlike⟩
  unfold readMember
  rw [hn]
  dsimp only
  rw [if_neg hp, if_neg (by simp)]
  exact hw.bind_nil Reads.pure

end

theorem closedEnumUnknown_of_acceptedBy {c : Codec} (h : v.acceptedBy c) : v.closedEnumUnknown c = false := by
  cases v
  case message => rfl
  case scalar s =>
    cases c <;> cases s <;> first | rfl | skip
    simp only [Value.acceptedBy, Codec.accepts, Bool.and_eq_true] at h
    simpa only [Value.closedEnumUnknown, Codec.closedEnumUnknown, Bool.not_eq_true'] using h.right

section

variable {keyCodec : Codec} {s s' : EntryState}

theorem readEntry_nil {merge : MessageMerger} :
    readEntry decode merge f keyCodec s [] = .ok s := by
  rw [readEntry, if_pos rfl]

theorem readEntry_of_reads {x rest : Bytes} (hx : x ≠ [])
    (h : (readEntryField decode (total merge) f keyCodec s).Reads x s') :
    readEntry decode (total merge) f keyCodec s (x ++ rest) = readEntry decode (total merge) f keyCodec s' rest := by
  rw [readEntry, if_neg (List.append_ne_nil_of_left_ne_nil hx rest)]
  split
  case h_1 he => rw [h] at he; cases he
  case h_2 he => rw [h] at he; cases he; rfl

theorem reads_key {b : Bytes} {key : Scalar} (ht : writeTag 1 keyCodec.wireType = .ok tag)
    (hb : keyCodec.write key = .ok b) :
    (readEntryField decode (total merge) f keyCodec s).Reads (tag ++ b) { s with key } := by
  refine (reads_of_writeTag ht).bind ?_
  dsimp only
  rw [if_pos ⟨rfl, rfl⟩]
  exact (Codec.reads_of_write hb).bind_nil Reads.pure

theorem reads_value {b : Bytes} {w : Value Message} (ht : writeTag 2 f.codec.wireType = .ok tag)
    (hb : (readValue decode f.codec).Reads b w) (hs : entryValue (total merge) f s w = .ok s') :
    (readEntryField decode (total merge) f keyCodec s).Reads (tag ++ b) s' := by
  refine (reads_of_writeTag ht).bind ?_
  dsimp only
  rw [if_neg (by simp), if_pos ⟨rfl, rfl⟩]
  exact hb.bind_nil (Reads.lift hs)

theorem entryValue_of_not_seen {w : Value Message} (hw : w.acceptedBy f.codec) (hs : s.valueSeen = false) :
    entryValue (total merge) f s w = .ok { s with value := w, valueSeen := true } := by
  have hc := closedEnumUnknown_of_acceptedBy hw
  cases w
  case scalar x =>
    rw [Value.closedEnumUnknown] at hc
    simp only [entryValue, hc]
    rfl
  case message d =>
    unfold entryValue
    split
    case h_1 h => cases h
    case h_2 => rw [hs]; rfl
    case h_3 => rfl

theorem reads_entry (hr : RoundTrips S U n encode decode P) (hn : f.mapKeyCodec = some keyCodec)
    {key : Scalar} (hk : keyCodec.accepts key) (hv : v.acceptedBy f.codec)
    (hP : ∀ d, v = .message d → P d) {b : Bytes} (h : writeEntry encode f keyCodec (key, v) = .ok b) :
    ∃ tag body w, b = tag ++ body ∧ writeTag f.number .lengthDelimited = .ok tag ∧
      (readMember decode (total merge) f .lengthDelimited).Reads body (some (.entry (some (key, w)))) ∧
      v.Like S U n w := by
  obtain ⟨keyTag, hkt, h⟩ := Except.bind_eq_ok_iff.mp h
  obtain ⟨x, hx, h⟩ := Except.bind_eq_ok_iff.mp h
  obtain ⟨valueTag, hvt, h⟩ := Except.bind_eq_ok_iff.mp h
  obtain ⟨y, hy, h⟩ := Except.bind_eq_ok_iff.mp h
  obtain ⟨tag, ht, h⟩ := Except.bind_eq_ok_iff.mp h
  obtain ⟨body, hb, ⟨⟩⟩ := Except.bind_eq_ok_iff.mp h
  have ⟨w, hw, hlike⟩ := reads_of_writeValue hr hv hP hy
  have hwa := hlike.acceptedBy hv
  have hdec : decodeMapEntry decode (total merge) f keyCodec (keyTag ++ x ++ (valueTag ++ y)) =
      .ok (some (key, w)) := by
    have hne {t z : Bytes} {num wt} (h : writeTag num wt = .ok t) : t ++ z ≠ [] :=
      List.append_ne_nil_of_left_ne_nil (ne_nil_of_writeTag h) z
    rw [decodeMapEntry, readEntry_of_reads (hne hkt) (reads_key hkt hx), ← List.append_nil (valueTag ++ y),
      readEntry_of_reads (hne hvt) (reads_value hvt hw (entryValue_of_not_seen hwa rfl)), readEntry_nil]
    simp [entryStart, hk, hwa]
  refine ⟨tag, body, w, rfl, ht, ?_, hlike⟩
  unfold readMember
  rw [hn]
  dsimp only
  rw [if_neg (by simp)]
  refine (reads_of_writeBytes hb).bind_nil fun rest => ?_
  rw [hdec]
  rfl

end

section

variable {deterministic : Bool} {x : Bytes}

theorem writtenEntries_perm {d : FinMap Scalar (Value Message)} : (writtenEntries deterministic d).Perm d.entries := by
  unfold writtenEntries
  split
  · exact List.perm_insertionSort ..
  · exact .refl _

theorem writeMember_map {keyCodec : Codec} (hn : f.mapKeyCodec = some keyCodec) :
    writeMember encode deterministic m k f = do
      return (← (writtenEntries deterministic (m.mapItems k)).mapM (writeEntry encode f keyCodec)).flatten := by
  unfold writeMember mapItems
  rw [hn]
  split
  case h_1 keyCodec' d hn' hv =>
    cases hn'
    rw [hv]
  case h_2 hv =>
    split
    case h_1 d hd => exact absurd hd <| hv d
    case h_2 => cases deterministic <;> rfl
  case h_3 hn' => cases hn'

theorem writeMember_repeated (hn : f.mapKeyCodec = none) (hr : f.repeated) :
    writeMember encode deterministic m k f =
      if m.repeatedItems k = [] then
        .ok []
      else if f.packed && f.codec.packable then do
        return (← writeTag f.number .lengthDelimited) ++
          (← writePacked (m.repeatedItems k) (writeValue encode f.codec))
      else do
        return (← (m.repeatedItems k).mapM (writeField encode f)).flatten := by
  unfold writeMember repeatedItems
  rcases hv : m.values k with _ | (_ | vs | _) <;> simp only [hn, hr, if_true]
  simp only [List.isEmpty_iff]

theorem writeMember_repeated_cases (hn : f.mapKeyCodec = none) (hr : f.repeated)
    (h : writeMember encode deterministic m k f = .ok x) :
    (m.repeatedItems k = [] ∧ x = []) ∨
    (m.repeatedItems k ≠ [] ∧ f.codec.packable ∧ ∃ tag body, x = tag ++ body ∧
      writeTag f.number .lengthDelimited = .ok tag ∧
      writePacked (m.repeatedItems k) (writeValue encode f.codec) = .ok body) ∨
    (m.repeatedItems k ≠ [] ∧ ∃ xs, (m.repeatedItems k).mapM (writeField encode f) = .ok xs ∧ x = xs.flatten) := by
  rw [writeMember_repeated hn hr] at h
  split at h
  case isTrue he =>
    cases h
    exact .inl ⟨he, rfl⟩
  case isFalse he =>
    refine .inr ?_
    split at h
    case isTrue hp =>
      obtain ⟨tag, ht, h⟩ := Except.bind_eq_ok_iff.mp h
      obtain ⟨body, hb, ⟨⟩⟩ := Except.bind_eq_ok_iff.mp h
      exact .inl ⟨he, (Bool.and_eq_true_iff.mp hp).right, tag, body, rfl, ht, hb⟩
    obtain ⟨xs, hxs, ⟨⟩⟩ := Except.bind_eq_ok_iff.mp h
    exact .inr ⟨he, xs, hxs, rfl⟩

theorem writeMember_unwritten (hr : f.repeated = false) (hu : m.Unwritten k f) :
    writeMember encode deterministic m k f = .ok [] := by
  have ⟨hn, hu⟩ := hu
  rw [if_neg (by simp [hr])] at hu
  by_cases hp : f.hasPresence
  · rw [if_pos hp] at hu
    simp only [writeMember, hn, hr, hp, hu]
    rfl
  · rw [if_neg hp] at hu
    simp only [writeMember, hn, hr, hp, Bool.false_eq_true, if_false]
    split
    case h_1 v hv => rw [if_pos (hu.resolve_left (by simp [hv]))]
    case h_2 => rfl

theorem writeMember_written (hn : f.mapKeyCodec = none) (hr : f.repeated = false)
    (hw : m.Written k f v) : writeMember encode deterministic m k f = writeField encode f v := by
  by_cases hp : f.hasPresence
  · simp [writeMember, hn, hr, hp, hw.values, hw.present hp]
  · simp [writeMember, hn, hr, hp, hw.values, hw.default hp]

end

theorem foldl_extend {ws : List (Value Message)} (hw : ws ≠ []) :
    ws.foldl (fun m w => m.extend k [w]) m = m.extend k ws := by
  have he {m : Message} {vs ws : List (Value Message)} : (m.extend k vs).extend k ws = m.extend k (vs ++ ws) := by
    simp [extend, setValue, repeatedItems, values, cls, state]
  induction ws generalizing m
  case nil => exact absurd rfl hw
  case cons w ws ih =>
    by_cases hn : ws = []
    · rw [hn]; rfl
    · rw [List.foldl_cons, ih hn, he]; rfl

variable {vs : List (Value Message)}

theorem exists_scalars {c : Codec} (hp : c.packable)
    (hv : ∀ v ∈ vs, v.acceptedBy c) : ∃ ss : List Scalar, vs = ss.map .scalar := by
  induction vs
  case nil => exact ⟨[], rfl⟩
  case cons v vs ih =>
    have ⟨ss, hss⟩ := ih fun v h => hv v <| List.mem_cons_of_mem _ h
    have hva := hv v List.mem_cons_self
    clear hv
    cases v
    case scalar s => exact ⟨s :: ss, by rw [hss]; rfl⟩
    case message d => cases c <;> simp [Value.acceptedBy, Codec.packable] at hva hp

theorem foldl_appendPacked {ss : List Scalar} (hs : ∀ s ∈ ss, f.codec.closedEnumUnknown s = false) :
    ss.foldl (appendPacked k f) m = (ss.map Value.scalar).foldl (fun m w => m.extend k [w]) m := by
  induction ss generalizing m
  case nil => rfl
  case cons s ss ih =>
    rw [List.map_cons, List.foldl_cons, List.foldl_cons, ih fun s h => hs s <| List.mem_cons_of_mem _ h]
    rw [appendPacked, if_neg (by simp [hs s List.mem_cons_self])]

theorem consumes_packed (hs : S.Separate) (hn : f.mapKeyCodec = none) (hr : f.repeated) (hp : f.codec.packable)
    (hf : (S m.cls).member? k = some f) (hv : ∀ v ∈ vs, v.acceptedBy f.codec)
    {body : Bytes} (ht : writeTag f.number .lengthDelimited = .ok tag)
    (hb : writePacked vs (writeValue encode f.codec) = .ok body) :
    Consumes decode merge copy S m (tag ++ body) (vs.foldl (fun m w => m.extend k [w]) m) := by
  obtain ⟨ss, rfl⟩ := exists_scalars hp hv
  have hread : (readPacked f.codec.read).Reads body ss := by
    refine reads_of_writePacked (List.forall₂_map_left_iff.mpr <| List.forall₂_same.mpr fun s _ x hx => ?_) hb
    have hx : f.codec.write s = .ok x := by
      cases hc : f.codec <;> rw [hc] at hx <;> exact hx
    exact ⟨Codec.reads_of_write hx, Codec.ne_nil_of_write hp hx⟩
  have hmem : (readMember decode (total merge) f .lengthDelimited).Reads body (some (.packed ss)) := by
    unfold readMember
    rw [hn]
    dsimp only
    rw [if_pos (by simp [hr, hp])]
    exact hread.bind_nil Reads.pure
  have hunk s (h : s ∈ ss) : f.codec.closedEnumUnknown s = false :=
    closedEnumUnknown_of_acceptedBy <| hv (.scalar s) <| List.mem_map_of_mem h
  rw [← foldl_appendPacked hunk]
  exact consumes_member hs hf ht hmem

variable {xs : List Bytes}

section

variable (merge) (hs : S.Separate) (hr : RoundTrips S U n encode decode P) (hcopy : Copies S U n copy)
include hs hr hcopy

theorem consumes_entries {keyCodec : Codec} (hn : f.mapKeyCodec = some keyCodec)
    {es : List (Scalar × Value Message)}
    (he : ∀ e ∈ es, keyCodec.accepts e.1 ∧ e.2.acceptedBy f.codec ∧ ∀ d, e.2 = .message d → P d)
    (h : List.Forall₂ (fun e x => writeEntry encode f keyCodec e = .ok x) es xs)
    (hf : (S m.cls).member? k = some f) :
    ∃ ws, List.Forall₂ (fun e w => w.1 = e.1 ∧ e.2.Like S U n w.2) es ws ∧
      Consumes decode merge copy S m xs.flatten (m.setEntries k ws) := by
  induction h generalizing m
  case nil => exact ⟨[], .nil, .refl⟩
  case cons e x es xs hx _ ih =>
    have ⟨hk, hv, hP⟩ := he e List.mem_cons_self
    obtain ⟨tag, body, w, rfl, ht, hb, hlike⟩ := reads_entry hr hn hk hv hP hx
    have ⟨ws, hws, hc⟩ := ih (m := m.setEntry k e.1 (w.map copy)) (fun e h => he e <| List.mem_cons_of_mem _ h) hf
    exact ⟨(e.1, w.map copy) :: ws, .cons ⟨rfl, hcopy.like_copy hlike⟩ hws, (consumes_member hs hf ht hb).trans hc⟩

theorem consumes_values (hn : f.mapKeyCodec = none) (hrep : f.repeated)
    (hv : ∀ v ∈ vs, v.acceptedBy f.codec ∧ ∀ d, v = .message d → P d)
    (h : List.Forall₂ (fun v x => writeField encode f v = .ok x) vs xs) (hf : (S m.cls).member? k = some f) :
    ∃ ws, List.Forall₂ (Value.Like S U n) vs ws ∧
      Consumes decode merge copy S m xs.flatten (ws.foldl (fun m w => m.extend k [w]) m) := by
  induction h generalizing m
  case nil => exact ⟨[], .nil, .refl⟩
  case cons v x vs xs hx _ ih =>
    have ⟨hva, hP⟩ := hv v List.mem_cons_self
    obtain ⟨tag, ht, hx⟩ := Except.bind_eq_ok_iff.mp hx
    obtain ⟨body, hb, ⟨⟩⟩ := Except.bind_eq_ok_iff.mp hx
    have ⟨w, hw, hlike⟩ := reads_readMember merge hr hn hva hP hb
    have ⟨ws, hws, hc⟩ := ih (m := m.extend k [w.map copy]) (fun v h => hv v <| List.mem_cons_of_mem _ h) hf
    refine ⟨w.map copy :: ws, .cons (hcopy.like_copy hlike) hws, Consumes.trans ?_ hc⟩
    have hm : Consumes decode merge copy S m _ _ := consumes_member hs hf ht hw
    rw [storeDecoded, if_neg (by simp [closedEnumUnknown_of_acceptedBy <| hlike.acceptedBy hva]), if_pos hrep] at hm
    exact hm

end

theorem mergeValue_clearSelected (hm : m.Selects S) (hf : (S m.cls).member? k = some f) :
    mergeValue copy merge (m.clearSelected S f) k f v = mergeValue copy merge m k f v := by
  rcases clearSelected_cases (f := f) hm with ⟨_, h⟩ | ⟨o, g, _, _, _, hd, h⟩
  · rw [h]
  · have hk : k ≠ g.key := (deselects_ne hf <| (hd g.key).mpr rfl).symm
    simp [mergeValue, mergesInto, h, Function.update_of_ne hk]

theorem equalsDefault_of_like {w : Value Message} (h : v.Like S U n w) :
    equalsDefault f (some (.singular w)) = equalsDefault f (some (.singular v)) := by
  have hc := h.content 0
  cases v <;> cases w <;> simp only [Value.map, Value.scalar.injEq, reduceCtorEq] at hc
  case scalar.scalar => rw [hc]
  case message.message => rfl

section

variable {a b : Message} {L : Set Key} {deterministic : Bool} {x : Bytes} (hs : S.Separate)
  (hr : RoundTrips S U n encode decode P) (hcopy : Copies S U n copy) (hb : b.Local S)
  (hP : ∀ d, b.Observed S (.message d) → P d) (hc : b.cls = a.cls) (h : Merged S U n a b L m)
  (hf : (S a.cls).member? k = some f) (hL : k ∉ L) (hx : writeMember encode deterministic b k f = .ok x)
include hs hr hcopy hb hP hc h hf hL hx

theorem Merged.consumes_map {keyCodec : Codec} (hn : f.mapKeyCodec = some keyCodec) :
    ∃ m', Consumes decode merge copy S m x m' ∧ Merged S U n a b (insert k L) m' := by
  have hf' : (S b.cls).member? k = some f := hc ▸ hf
  rw [writeMember_map hn] at hx
  obtain ⟨xs, hxs, ⟨⟩⟩ := Except.bind_eq_ok_iff.mp hx
  have hperm : (writtenEntries deterministic (b.mapItems k)).Perm (b.mapItems k).entries := writtenEntries_perm
  have he e (he : e ∈ writtenEntries deterministic (b.mapItems k)) :
      keyCodec.accepts e.1 ∧ e.2.acceptedBy f.codec ∧ ∀ d, e.2 = .message d → P d := by
    have ⟨g, hg, hget⟩ := get?_mapItems <| FinMap.mem_entries_iff.mp <| hperm.mem_iff.mp he
    have ⟨keyCodec', hn', hfit⟩ := hb.fits hf' hg
    cases hn.symm.trans hn'
    have ⟨hk, hv⟩ := hfit e.1 e.2 hget
    exact ⟨hk, hv, fun d hd => hP d ⟨k, f, _, hf', hg, ⟨e.1, hd ▸ hget⟩, fun ⟨_, h⟩ => nomatch h⟩⟩
  have ⟨ws, hws, hcon⟩ := consumes_entries merge hs hr hcopy hn he (Except.mapM_eq_ok_iff.mp hxs) (h.cls ▸ hf)
  exact ⟨_, hcon, h.setEntries hf hL hb hc hn hperm hws⟩

theorem Merged.consumes_repeated (hfl : f.Floatless) (hn : f.mapKeyCodec = none) (hrep : f.repeated) :
    ∃ m', Consumes decode merge copy S m x m' ∧ Merged S U n a b (insert k L) m' := by
  have hf' : (S b.cls).member? k = some f := hc ▸ hf
  have hv v (hv : v ∈ b.repeatedItems k) : v.acceptedBy f.codec ∧ ∀ d, v = .message d → P d := by
    have ⟨vs, hvs, hv⟩ := mem_repeatedItems hv
    refine ⟨(hb.fits hf' hvs).right.right v hv, fun d hd => ?_⟩
    exact hP d ⟨k, f, _, hf', hvs, hd ▸ hv, fun ⟨_, h⟩ => nomatch h⟩
  have hmf : (S m.cls).member? k = some f := h.cls ▸ hf
  have hext {ws} (hne : b.repeatedItems k ≠ []) (hws : List.Forall₂ (Value.Like S U n) (b.repeatedItems k) ws) :
      Merged S U n a b (insert k L) (ws.foldl (fun m w => m.extend k [w]) m) := by
    rw [foldl_extend fun he => hne <| List.forall₂_nil_right_iff.mp <| he ▸ hws]
    exact h.extend hf hL hb hc hn hrep hws
  rcases writeMember_repeated_cases hn hrep hx with ⟨he, rfl⟩ | ⟨hne, hp, tag, body, rfl, ht, hbody⟩ |
    ⟨hne, xs, hxs, rfl⟩
  · exact ⟨m, .refl, h.skip_of_unwritten hf hL hb hc hfl ⟨hn, by rw [if_pos hrep]; exact he⟩⟩
  · refine ⟨_, consumes_packed hs hn hrep hp hmf (fun v h => (hv v h).left) ht hbody, hext hne ?_⟩
    obtain ⟨ss, hss⟩ := exists_scalars hp fun v h => (hv v h).left
    rw [hss]
    refine List.forall₂_same.mpr fun w hw => ?_
    have ⟨s, _, he⟩ := List.mem_map.mp hw
    exact he ▸ ⟨fun _ => rfl, nofun⟩
  · have ⟨ws, hws, hcon⟩ := consumes_values merge hs hr hcopy hn hrep hv (Except.mapM_eq_ok_iff.mp hxs) hmf
    exact ⟨_, hcon, hext hne hws⟩

theorem Merged.consumes_written (hmerge : Merges S U n merge) (ha : a.Local S) (hn : f.mapKeyCodec = none)
    (hrep : f.repeated = false) (hw : b.Written k f v) :
    ∃ m', Consumes decode merge copy S m x m' ∧ Merged S U n a b (insert k L) m' := by
  have hf' : (S b.cls).member? k = some f := hc ▸ hf
  have hmf : (S m.cls).member? k = some f := h.cls ▸ hf
  have hsel := h.settled.left.isLocal.selects
  have hfit := hb.fits hf' hw.values
  have hva : v.acceptedBy f.codec := hfit.right.right
  have hPv d (hd : v = .message d) : P d := hP d ⟨k, f, _, hf', hw.values, hd.symm, fun _ => hw.present⟩
  rw [writeMember_written hn hrep hw] at hx
  obtain ⟨tag, ht, hx⟩ := Except.bind_eq_ok_iff.mp hx
  obtain ⟨body, hbody, ⟨⟩⟩ := Except.bind_eq_ok_iff.mp hx
  have ⟨w, hread, hlike⟩ := reads_readMember merge hr hn hva hPv hbody
  have hwa := hlike.acceptedBy hva
  refine ⟨m.storeValue S k f (mergeValue copy merge m k f w), ?_, ?_⟩
  · have hm : Consumes decode merge copy S m _ _ := consumes_member hs hmf ht hread
    rw [storeDecoded, if_neg (by simp [closedEnumUnknown_of_acceptedBy hwa]), if_neg (by simp [hrep]),
      storeSingular, mergeValue_clearSelected hsel hmf, storeValue_clearSelected hsel hmf] at hm
    exact hm
  · have ⟨hwf, hws, hwc⟩ := mergeValue_spec hcopy hmerge h.settled hmf ⟨hn, by simp [hrep], hwa⟩
      (fun d hd => (hlike.settled d hd).sound)
    refine h.store hf hL hb hc ha (storeValue_stores hsel hmf) hw.values hw.present hwf hws fun j => ?_
    rw [hwc (equalsDefault_of_like hlike ▸ hw.default) j, hlike.content j]

theorem Merged.consumes (hmerge : Merges S U n merge) (ha : a.Local S) (hfl : f.Floatless) :
    ∃ m', Consumes decode merge copy S m x m' ∧ Merged S U n a b (insert k L) m' := by
  rcases member_cases hb (hc ▸ hf) with ⟨keyCodec, hn⟩ | ⟨hn, hrep⟩ | ⟨hrep, hu⟩ | ⟨v, hn, hrep, hw⟩
  · exact h.consumes_map hs hr hcopy hb hP hc hf hL hx hn
  · exact h.consumes_repeated hs hr hcopy hb hP hc hf hL hx hfl hn hrep
  · cases (writeMember_unwritten hrep hu).symm.trans hx
    exact ⟨m, .refl, h.skip_of_unwritten hf hL hb hc hfl hu⟩
  · exact h.consumes_written hs hr hcopy hb hP hc hf hL hx hmerge ha hn hrep hw

end

theorem addUnknown_nil : m.addUnknown [] = m :=
  ext rfl rfl rfl rfl <| List.append_nil _

theorem storeRecord_unknown (h : r.isUnknown) : storeRecord merge copy S m r = m.addUnknown [r.raw] := by
  obtain ⟨raw, d⟩ := r
  rcases d with _ | ⟨k, f, (_ | _) | _ | v⟩
  case none => rfl
  case some.entry.none => rfl
  case some.value => exact if_pos h
  all_goals cases h

def ReadsUnknown (decode : MessageDecoder)
    (merge : Message → Message → Message) (c : MessageClass) (x : Bytes) : Prop :=
  ∃ r : Record Message, readRecord decode (total merge) c x = .ok (r, []) ∧ r.isUnknown

theorem readRecord_raw {c : MessageClass} {x : Bytes} (h : readRecord decode (total merge) c x = .ok (r, [])) :
    x ≠ [] ∧ r.raw = x ∧ (readRecord decode (total merge) c).Reads x r := by
  refine ⟨?_, ?_, ?_⟩
  · rintro rfl
    exact absurd (progress_readRecord _ _ _ h) (Nat.lt_irrefl _)
  · obtain ⟨⟨d, raw⟩, rest, hd, he⟩ := Reader.bind_eq_ok_iff.mp h
    cases he
    have ⟨hi, _⟩ := (streaming_readTag.bind fun _ => streaming_readRecordBody).raw hd
    simpa using hi.symm
  · have ⟨y, hy, hread⟩ := streaming_readRecord _ _ _ h
    rw [hy, List.append_nil]
    exact hread

theorem consumes_unknown (h : ∀ x ∈ xs, ReadsUnknown decode merge (S m.cls) x) :
    Consumes decode merge copy S m xs.flatten (m.addUnknown xs) := by
  induction xs generalizing m
  case nil =>
    rw [addUnknown_nil]
    exact .refl
  case cons x xs ih =>
    have ⟨r, hr, hu⟩ := h x List.mem_cons_self
    have ⟨hx, hraw, hread⟩ := readRecord_raw hr
    have hc : Consumes decode merge copy S m x _ := Consumes.record hx hread
    rw [storeRecord_unknown hu, hraw] at hc
    have hi := ih (m := m.addUnknown [x]) fun x h' => h x <| List.mem_cons_of_mem _ h'
    have ha : (m.addUnknown [x]).addUnknown xs = m.addUnknown (x :: xs) :=
      ext rfl rfl rfl rfl <| List.append_assoc ..
    rw [ha] at hi
    exact hc.trans hi

def decodeNested (S : Schema) (n : Nat) (c : ClassId) (payload : Bytes) : Except DecodeFailure Message :=
  result (mergeString S n (.empty c) payload)

-- The unknown fields that are read as unknown fields once more if `n` levels are left.
def UnknownAt (S : Schema) : Unknowns := fun n c x =>
  ReadsUnknown (decodeNested S n) (mergeFrom S n) (S c) x

theorem serialize_eq_ok_iff {deterministic : Bool} {x : Bytes} :
    serialize S deterministic (n + 1) m = .ok x ↔
      findInitializationErrors S (S m.cls).nestingLimit m = .ok [] ∧ ∃ xs ys,
        (sortedFields (S m.cls)).mapM (fun f =>
          writeMember (serialize S deterministic n) deterministic m f.key f) = .ok xs ∧
        (sortedExtensions (S m.cls)).mapM (fun e =>
          writeMember (serialize S deterministic n) deterministic m e.key e.field) = .ok ys ∧
        x = xs.flatten ++ ys.flatten ++ m.unknownFields.flatten := by
  constructor
  · intro h
    obtain ⟨missing, hm, h⟩ := Except.bind_eq_ok_iff.mp h
    split at h
    case isTrue => cases h
    case isFalse hn =>
      obtain ⟨xs, hxs, h⟩ := Except.bind_eq_ok_iff.mp h
      obtain ⟨ys, hys, ⟨⟩⟩ := Except.bind_eq_ok_iff.mp h
      exact ⟨not_not.mp hn ▸ hm, xs, ys, hxs, hys, rfl⟩
  · rintro ⟨hm, xs, ys, hxs, hys, rfl⟩
    refine Except.bind_eq_ok_iff.mpr ⟨[], hm, ?_⟩
    refine Except.bind_eq_ok_iff.mpr ⟨xs, hxs, ?_⟩
    exact Except.bind_eq_ok_iff.mpr ⟨ys, hys, rfl⟩

section

variable (hS : S.Floatless) (hs : S.Separate) {deterministic : Bool} {a b : Message} {L : Set Key}
include hS hs

theorem Merged.consumes_all (hr : RoundTrips S U n encode (decodeNested S n) P) {α : Type} {key : α → Key}
    {field : α → Field} {as : List α} (hb : b.Local S)
    (hP : ∀ d, b.Observed S (.message d) → P d) (hc : b.cls = a.cls) (ha : a.Local S)
    (hf : ∀ x ∈ as, (S a.cls).member? (key x) = some (field x))
    (hxs : as.mapM (fun x => writeMember encode deterministic b (key x) (field x)) = .ok xs)
    (hn : (as.map key).Nodup) (h : Merged S U n a b L m) (hL : ∀ x ∈ as, key x ∉ L) :
    ∃ m', Consumes (decodeNested S n) (mergeFrom S n) (Message.copy S n) S m xs.flatten m' ∧
      Merged S U n a b ({ k | ∃ x ∈ as, key x = k } ∪ L) m' := by
  have ⟨hmerge, hcopy⟩ := merges_mergeFrom (U := U) (n := n) hS
  refine h.run (C := fun m xs m' => Consumes (decodeNested S n) (mergeFrom S n) (Message.copy S n) S m xs.flatten m')
    (fun _ => .refl) ?_ (Except.mapM_eq_ok_iff.mp hxs) hn hL
  intro L m x y hx hy hL h
  have ⟨m', hm', h'⟩ := h.consumes hs hr hcopy hb hP hc (hf x hx) hL hy hmerge ha (hS (hf x hx))
  exact ⟨m', h', fun hc => hm'.trans hc⟩

theorem consumes_of_serialize {x : Bytes}
    (hr : RoundTrips S (UnknownAt S) n (serialize S deterministic n) (decodeNested S n) (Sound S (UnknownAt S) n))
    (ha : a.Settled S (UnknownAt S) (n + 1)) (hb : b.Sound S (UnknownAt S) (n + 1)) (hc : b.cls = a.cls)
    (hx : serialize S deterministic (n + 1) b = .ok x) :
    ∃ m, Consumes (decodeNested S n) (mergeFrom S n) (Message.copy S n) S a x m ∧
      m.Settled S (UnknownAt S) (n + 1) ∧
      ∀ j, m.content S j = Content.merge S j (a.content S j) (b.content S j) := by
  have ⟨hb', hd⟩ := hb
  obtain ⟨_, xs, ys, hxs, hys, rfl⟩ := serialize_eq_ok_iff.mp hx
  have hpf : (sortedFields (S a.cls)).Perm (S a.cls).fields := List.perm_insertionSort ..
  have hpe : (sortedExtensions (S a.cls)).Perm (S a.cls).extensions := List.perm_insertionSort ..
  rw [hc] at hxs hys
  have ⟨m₁, hc₁, h₁⟩ := (Merged.start ha).consumes_all hS hs hr hb'.isLocal hd hc ha.left.isLocal
    (fun f hf => MessageClass.member?_of_field <| hpf.mem_iff.mp hf) hxs
    ((hpf.map Field.key).nodup_iff.mpr MessageClass.nodup_keys) (fun _ _ => Set.notMem_empty _)
  have ⟨m₂, hc₂, h₂⟩ := h₁.consumes_all hS hs hr hb'.isLocal hd hc ha.left.isLocal
    (fun e he => MessageClass.member?_of_extension <| hpe.mem_iff.mp he) hys
    ((hpe.map Extension.key).nodup_iff.mpr MessageClass.nodup_extension_keys)
    (by simp [Extension.key, Field.key])
  have hu : ∀ x ∈ b.unknownFields, UnknownAt S n m₂.cls x := h₂.cls ▸ hc ▸ hb'.unknown
  refine ⟨_, (hc₁.trans hc₂).trans (consumes_unknown hu), h₂.finish hb' hc fun k f hf => ?_⟩
  rcases MessageClass.mem_of_member? hf with ⟨f, hf, hk⟩ | ⟨e, he, hk⟩
  · exact .inr <| .inl ⟨f, hpf.mem_iff.mpr hf, hk⟩
  · exact .inl ⟨e, hpe.mem_iff.mpr he, hk⟩

omit hS hs in
theorem mergeString_of_consumes {x : Bytes}
    (h : Consumes (decodeNested S n) (mergeFrom S n) (Message.copy S n) S a x m) :
    mergeString S (n + 1) a x = (m, none) := by
  have h := h []
  rw [List.append_nil, mergeRecords_nil] at h
  exact h

theorem roundTrips : RoundTrips S (UnknownAt S) n (serialize S deterministic n) (decodeNested S n)
    (Sound S (UnknownAt S) n) := by
  induction n
  case zero => exact fun _ _ _ h => nomatch h
  case succ n ih =>
    intro c x hc hx
    have ⟨d, hd, hset, hcon⟩ := consumes_of_serialize hS hs ih (a := .empty c.cls) .empty hc rfl hx
    refine ⟨d, ?_, hset, fun j => ?_⟩
    · rw [decodeNested, mergeString_of_consumes hd]
      rfl
    · rw [hcon j, content_merge_empty hS hc.left.isLocal]

end

end Message

end Protos
