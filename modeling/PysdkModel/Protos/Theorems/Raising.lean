import PysdkModel.Protos.Raising
import PysdkModel.Protos.Theorems.Parse

-- The exceptions that a decoder could raise besides `DecodeError` do not occur.

namespace Protos

theorem Value.acceptedBy_message_iff {d : Message} {c : Codec} :
    (Value.message d).acceptedBy c ↔ c = .message d.cls := by
  cases c <;> simp [Value.acceptedBy, eq_comm]

variable {v : Value Message} {vs : List (Value Message)}

namespace Message

def HasChild (S : Schema) (m c : Message) : Prop :=
  ∃ k f s, (S m.cls).member? k = some f ∧ m.values k = some s ∧ s.Contains (.message c)

def Typed (S : Schema) (m : Message) : Prop :=
  ∀ ⦃k f s⦄, (S m.cls).member? k = some f → m.values k = some s → s.Fits f

-- The message is typed and so are the messages in it, down to `n` levels. The messages below satisfy `B`.
def TypedTo (S : Schema) (B : Message → Prop) : Nat → Message → Prop
  | 0, m => B m
  | n + 1, m => m.Typed S ∧ ∀ c, m.HasChild S c → TypedTo S B n c

def WellTyped (S : Schema) (m : Message) : Prop :=
  ∀ n, m.TypedTo S (fun _ => True) n

def IsEmpty (m : Message) : Prop :=
  m = .empty m.cls

variable {S : Schema} {B B' : Message → Prop} {n : Nat} {m : Message} {k : Key} {f : Field}

theorem TypedTo.mono (h : ∀ {m}, B m → B' m) (hm : m.TypedTo S B n) : m.TypedTo S B' n := by
  induction n generalizing m
  case zero => exact h hm
  case succ n ih => exact ⟨hm.left, fun c hc => ih <| hm.right c hc⟩

theorem TypedTo.of_isEmpty (hB : ∀ c, B (.empty c)) (hm : m.TypedTo S IsEmpty n) : m.TypedTo S B n :=
  hm.mono fun {m} (h : m = _) => h ▸ hB _

theorem TypedTo.empty (hB : ∀ c, B (.empty c)) {c : ClassId} : (Message.empty c).TypedTo S B n := by
  have hv k : (Message.empty c).values k = none := rfl
  cases n
  case zero => exact hB c
  case succ n =>
    refine ⟨fun k f s _ hs => ?_, ?_⟩
    · rw [hv] at hs; cases hs
    · rintro d ⟨k, f, s, _, hs, _⟩
      rw [hv] at hs; cases hs

theorem TypedTo.of_values (hm : m.TypedTo S B (n + 1)) {m' : Message} (hc : m'.cls = m.cls)
    (h : ∀ k f s, (S m.cls).member? k = some f → m'.values k = some s →
      m.values k = some s ∨ (s.Fits f ∧ ∀ c, s.Contains (.message c) → c.TypedTo S B n)) :
    m'.TypedTo S B (n + 1) := by
  refine ⟨fun k f s hf hs => ?_, ?_⟩
  · rw [hc] at hf
    rcases h k f s hf hs with hs | hs
    · exact hm.left hf hs
    · exact hs.left
  · rintro c ⟨k, f, s, hf, hs, hd⟩
    rw [hc] at hf
    rcases h k f s hf hs with hs | hs
    · exact hm.right c ⟨k, f, s, hf, hs, hd⟩
    · exact hs.right c hd

theorem TypedTo.setValue (hm : m.TypedTo S B (n + 1)) {s : Option (Slot Message)} (hf : (S m.cls).member? k = some f)
    (h : ∀ t, s = some t → t.Fits f ∧ ∀ c, t.Contains (.message c) → c.TypedTo S B n) :
    (m.setValue k s).TypedTo S B (n + 1) := by
  refine hm.of_values rfl fun k' f' t hf' ht => ?_
  by_cases hk : k' = k
  · subst hk
    cases hf.symm.trans hf'
    rw [values_setValue, Function.update_self] at ht
    exact .inr (h t ht)
  · rw [values_setValue, Function.update_of_ne hk] at ht
    exact .inl ht

structure Holds (S : Schema) (B : Message → Prop) (n : Nat) (c : Codec) (v : Value Message) : Prop where
  accepted : v.acceptedBy c
  typed : ∀ d, v = .message d → d.TypedTo S B n

theorem Holds.of_isEmpty (hB : ∀ c, B (.empty c)) {c : Codec} (h : Holds S IsEmpty n c v) : Holds S B n c v :=
  ⟨h.accepted, fun d hd => (h.typed d hd).of_isEmpty hB⟩

theorem TypedTo.extend (hm : m.TypedTo S B (n + 1)) (hf : (S m.cls).member? k = some f)
    (hn : f.mapKeyCodec = none) (hr : f.repeated)
    (hv : ∀ v ∈ vs, Holds S B n f.codec v) : (m.extend k vs).TypedTo S B (n + 1) := by
  refine hm.setValue hf ?_
  rintro _ ⟨⟩
  refine ⟨⟨hn, hr, fun v h => ?_⟩, fun d h => ?_⟩
  · rcases List.mem_append.mp h with h | h
    · obtain ⟨ws, hws, h⟩ := mem_repeatedItems h
      exact (hm.left hf hws).right.right v h
    · exact (hv v h).accepted
  · rcases List.mem_append.mp h with h | h
    · obtain ⟨ws, hws, h⟩ := mem_repeatedItems h
      exact hm.right d ⟨k, f, _, hf, hws, h⟩
    · exact (hv _ h).typed d rfl

theorem TypedTo.setEntry (hm : m.TypedTo S B (n + 1)) (hf : (S m.cls).member? k = some f)
    {keyCodec : Codec} (hn : f.mapKeyCodec = some keyCodec) {key : Scalar} (hk : keyCodec.accepts key)
    (hv : Holds S B n f.codec v) : (m.setEntry k key v).TypedTo S B (n + 1) := by
  refine hm.setValue hf ?_
  rintro _ ⟨⟩
  refine ⟨⟨keyCodec, hn, fun key' w h => ?_⟩, fun d h => ?_⟩
  · rw [FinMap.get?_set] at h
    split at h
    case isTrue he => cases h; exact ⟨he ▸ hk, hv.accepted⟩
    obtain ⟨d, hd, h⟩ := get?_mapItems h
    obtain ⟨keyCodec', hn', hfit⟩ := hm.left hf hd
    cases hn.symm.trans hn'
    exact hfit key' w h
  · obtain ⟨key', h⟩ := h
    rw [FinMap.get?_set] at h
    split at h
    case isTrue => cases h; exact hv.typed d rfl
    obtain ⟨e, he, h⟩ := get?_mapItems h
    exact hm.right d ⟨k, f, _, hf, he, key', h⟩

theorem TypedTo.clearState (hm : m.TypedTo S B (n + 1)) (hf : (S m.cls).member? f.key = some f) :
    (m.clearState f).TypedTo S B (n + 1) := by
  unfold Message.clearState
  split
  case isTrue hmap =>
    obtain ⟨keyCodec, hk⟩ := Option.isSome_iff_exists.mp hmap
    refine hm.setValue hf fun t ht => ?_
    obtain ⟨_, _, rfl⟩ := Option.map_eq_some_iff.mp ht
    refine ⟨⟨keyCodec, hk, fun key v h => ?_⟩, ?_⟩
    · rw [FinMap.get?_empty] at h; cases h
    · rintro c ⟨key, h⟩
      rw [FinMap.get?_empty] at h; cases h
  case isFalse hmap =>
    have hk : f.mapKeyCodec = none := by simpa [Field.map] using hmap
    split
    case isTrue hr =>
      refine hm.setValue hf fun t ht => ?_
      obtain ⟨_, _, rfl⟩ := Option.map_eq_some_iff.mp ht
      exact ⟨⟨hk, hr, by simp⟩, fun c h => by cases h⟩
    have h := hm.setValue hf (s := none) (by simp)
    cases ho : f.oneof
    case none => exact h.of_values rfl fun _ _ _ _ => .inl
    case some o =>
      dsimp only
      split <;> exact h.of_values rfl fun _ _ _ _ => .inl

theorem cls_clearState : (m.clearState f).cls = m.cls := by
  unfold clearState
  split
  · rfl
  · split
    · rfl
    · cases f.oneof
      case none => rfl
      case some => dsimp only; split <;> rfl

theorem TypedTo.clearSelected (hm : m.TypedTo S B (n + 1)) : (m.clearSelected S f).TypedTo S B (n + 1) := by
  unfold Message.clearSelected
  split
  · exact hm
  · split
    · exact hm
    case h_2 previous hp =>
      split
      · exact hm
      · obtain ⟨number, _, hf⟩ := Option.bind_eq_some_iff.mp hp
        refine hm.clearState ?_
        rw [Field.key, MessageClass.number_of_field? hf]
        exact hf

theorem cls_clearSelected : (m.clearSelected S f).cls = m.cls := by
  unfold clearSelected
  split
  · rfl
  · split
    · rfl
    · split
      · rfl
      · exact cls_clearState

theorem TypedTo.storeValue (hm : m.TypedTo S B (n + 1)) (hf : (S m.cls).member? k = some f)
    (hn : f.mapKeyCodec = none) (hr : ¬f.repeated) (hv : Holds S B n f.codec v) :
    (m.storeValue S k f v).TypedTo S B (n + 1) ∧ (m.storeValue S k f v).cls = m.cls := by
  have hs : (m.setValue k (some (.singular v))).TypedTo S B (n + 1) := by
    refine hm.setValue hf ?_
    rintro _ ⟨⟩
    exact ⟨⟨hn, hr, hv.accepted⟩, fun c h => hv.typed c h.symm⟩
  unfold Message.storeValue Message.select
  cases f.oneof
  case none =>
    dsimp only
    split <;> exact ⟨hs.of_values rfl fun _ _ _ _ => .inl, rfl⟩
  case some =>
    dsimp only
    have hc := cls_clearSelected (S := S) (m := m.setValue k (some (.singular v))) (f := f)
    split <;> exact ⟨hs.clearSelected.of_values rfl fun _ _ _ _ => .inl, hc⟩

end Message

namespace Raising

open Message

variable {S : Schema} {B : Message → Prop} {n : Nat} {m m' : Message} {x : Except DecodeFailure Message} {k : Key}
  {f : Field} {merge : MessageMerger} {merge' : Message → Message → Message}

structure Succeeds (S : Schema) (B : Message → Prop) (n : Nat) (m : Message) (x : Except DecodeFailure Message)
    (m' : Message) : Prop where
  eq : x = .ok m'
  cls : m'.cls = m.cls
  typed : m'.TypedTo S B n

theorem Succeeds.refl (hm : m.TypedTo S B n) : Succeeds S B n m (pure m) m :=
  ⟨rfl, rfl, hm⟩

theorem Succeeds.foldlM {α : Type} {g : Message → α → Except DecodeFailure Message} {g' : Message → α → Message}
    (as : List α) (hm : m.TypedTo S B n)
    (h : ∀ a ∈ as, ∀ m', m'.cls = m.cls → m'.TypedTo S B n → Succeeds S B n m' (g m' a) (g' m' a)) :
    Succeeds S B n m (as.foldlM g m) (as.foldl g' m) := by
  induction as generalizing m
  case nil => exact .refl hm
  case cons a as ih =>
    have ha := h a List.mem_cons_self m rfl hm
    have has := ih ha.typed fun b hb m' hc => h b (List.mem_cons_of_mem a hb) m' (hc.trans ha.cls)
    rw [List.foldlM_cons, List.foldl_cons, ha.eq]
    exact ⟨has.eq, has.cls.trans ha.cls, has.typed⟩

def Agrees (S : Schema) (n : Nat) (merge : MessageMerger)
    (merge' : Message → Message → Message) : Prop :=
  ∀ B a b, (∀ c, B (.empty c)) → a.TypedTo S B n → b.TypedTo S IsEmpty n → b.cls = a.cls →
    Succeeds S B n a (merge a b) (merge' a b)

abbrev clone (merge' : Message → Message → Message) (c : Message) : Message :=
  merge' (.empty c.cls) c

section

variable (hA : Agrees S n merge merge')
include hA

theorem copy_spec {c : Codec} (hv : Holds S IsEmpty n c v) :
    copy merge c v = .ok (v.map (clone merge')) ∧ Holds S IsEmpty n c (v.map (clone merge')) := by
  cases v
  case scalar s =>
    refine ⟨?_, hv⟩
    cases c <;> rfl
  case message d =>
    obtain ⟨hacc, hd⟩ := hv
    have hs := hA IsEmpty (.empty d.cls) d (fun _ => rfl) (.empty fun _ => rfl) (hd d rfl) rfl
    cases Value.acceptedBy_message_iff.mp hacc
    refine ⟨by rw [copy, hs.eq]; rfl, Value.acceptedBy_message_iff.mpr (congrArg _ hs.cls.symm), ?_⟩
    rintro _ ⟨⟩
    exact hs.typed

theorem prepare_spec {c : Codec} (hv : Holds S IsEmpty n c v) :
    prepare merge c v = .ok (v.map (clone merge')) ∧ Holds S IsEmpty n c (v.map (clone merge')) := by
  rw [prepare, normalize, if_pos hv.accepted]
  exact copy_spec hA hv

theorem mapM_prepare {c : Codec} (hv : ∀ v ∈ vs, Holds S IsEmpty n c v) :
    vs.mapM (prepare merge c) = .ok (vs.map (Value.map (clone merge'))) := by
  rw [Except.mapM_eq_ok_iff]
  exact List.forall₂_map_right_iff.mpr <| List.forall₂_same.mpr fun v h => (prepare_spec hA (hv v h)).left

variable (hB : ∀ c, B (.empty c)) (hm : m.TypedTo S B (n + 1)) (hf : (S m.cls).member? k = some f)
include hB hm hf

theorem extend_succeeds (hn : f.mapKeyCodec = none) (hr : f.repeated)
    (hv : ∀ v ∈ vs, Holds S IsEmpty n f.codec v) : Succeeds S B (n + 1) m (extend merge m k f vs)
      (m.extend k (vs.map (Value.map (clone merge')))) := by
  refine ⟨by rw [extend, mapM_prepare hA hv]; rfl, rfl, hm.extend hf hn hr fun w hw => ?_⟩
  obtain ⟨v, h, rfl⟩ := List.mem_map.mp hw
  exact (prepare_spec hA (hv v h)).right.of_isEmpty hB

theorem append_succeeds (hn : f.mapKeyCodec = none) (hr : f.repeated)
    (hv : Holds S IsEmpty n f.codec v) : Succeeds S B (n + 1) m (append merge m k f v)
      (m.extend k [v.map (clone merge')]) := by
  obtain ⟨he, hc⟩ := prepare_spec hA hv
  refine ⟨by rw [append, he]; rfl, rfl, hm.extend hf hn hr fun w hw => ?_⟩
  rw [List.mem_singleton.mp hw]
  exact hc.of_isEmpty hB

theorem setItem_succeeds {keyCodec : Codec} (hn : f.mapKeyCodec = some keyCodec) {key : Scalar}
    (hk : keyCodec.accepts key) (hv : Holds S IsEmpty n f.codec v) :
    Succeeds S B (n + 1) m (setItem merge m k f keyCodec key v) (m.setEntry k key (v.map (clone merge'))) := by
  obtain ⟨he, hc⟩ := prepare_spec hA hv
  refine ⟨?_, rfl, hm.setEntry hf hn hk (hc.of_isEmpty hB)⟩
  rw [setItem, normalizeKey, if_pos hk, he]
  rfl

theorem mergeValue_spec (hv : Holds S IsEmpty n f.codec v) :
    mergeValue merge m k f v = .ok (Message.mergeValue (clone merge') merge' m k f v) ∧
    Holds S B n f.codec (Message.mergeValue (clone merge') merge' m k f v) := by
  obtain ⟨he, hc⟩ := copy_spec hA hv
  rw [mergeValue, he]
  cases v
  case scalar => exact ⟨rfl, hc.of_isEmpty hB⟩
  case message d =>
    have hd := hc.typed _ rfl
    cases hs : (m.values k).bind Slot.message?
    case none =>
      refine ⟨by simp only [Message.mergeValue, hs]; rfl, ?_⟩
      simp only [Message.mergeValue, hs]
      exact hc.of_isEmpty hB
    case some stored =>
      simp only [Message.mergeValue, hs]
      change (if m.mergesInto k f then _ else _) = _ ∧ _
      split
      case isFalse => exact ⟨rfl, hc.of_isEmpty hB⟩
      -- The stored child is of the codec's class, and so is the copy.
      obtain ⟨s, hs, hst⟩ := Option.bind_eq_some_iff.mp hs
      obtain ⟨w, rfl, hw⟩ : ∃ w, s = .singular w ∧ w = .message stored := by
        cases s
        case singular w => cases w <;> cases hst; exact ⟨_, rfl, rfl⟩
        all_goals cases hst
      subst hw
      have hacc := (hm.left hf hs).right.right
      have hcodec := Value.acceptedBy_message_iff.mp hacc
      have hcls : (clone merge' d).cls = stored.cls :=
        Codec.message.inj <| (Value.acceptedBy_message_iff.mp hc.accepted).symm.trans hcodec
      have h := hA B stored (clone merge' d) hB (hm.right stored ⟨k, f, _, hf, hs, rfl⟩) hd hcls
      refine ⟨by rw [h.eq]; rfl, Value.acceptedBy_message_iff.mpr (h.cls.symm ▸ hcodec), ?_⟩
      rintro _ ⟨⟩
      exact h.typed

theorem storeSingular_succeeds (hn : f.mapKeyCodec = none) (hr : ¬f.repeated)
    (hv : Holds S IsEmpty n f.codec v) : Succeeds S B (n + 1) m (storeSingular merge S m k f v)
      (Message.storeSingular (clone merge') merge' S m k f v) := by
  obtain ⟨he, hw⟩ := mergeValue_spec hA hB hm hf hv
  obtain ⟨ht, hc⟩ := hm.storeValue hf hn hr hw
  refine ⟨?_, hc, ht⟩
  rw [storeSingular, he]
  rfl

theorem mergeMember_succeeds {other : Message} (ho : other.TypedTo S IsEmpty (n + 1)) (hc : other.cls = m.cls) :
    Succeeds S B (n + 1) m (mergeMember merge S other m k f)
      (Message.mergeMember (clone merge') merge' S other m k f) := by
  have hof : (S other.cls).member? k = some f := hc ▸ hf
  have hchild {s : Slot Message} (hs : other.values k = some s) {d : Message} (hd : s.Contains (.message d)) :
      d.TypedTo S IsEmpty n := ho.right d ⟨k, f, s, hof, hs, hd⟩
  unfold mergeMember Message.mergeMember
  rcases hv : other.values k with _ | v | vs | d <;> cases hn : f.mapKeyCodec
  case some.map.some keyCodec =>
    obtain ⟨_, hk, hfit⟩ := ho.left hof hv
    cases hn.symm.trans hk
    refine Succeeds.foldlM _ hm ?_
    rintro ⟨key, w⟩ hw m' hc' hm'
    have hg := FinMap.mem_entries_iff.mp hw
    obtain ⟨hkey, hacc⟩ := hfit key w hg
    refine setItem_succeeds hA hB hm' (hc' ▸ hf) hn hkey ⟨hacc, ?_⟩
    rintro d' rfl
    exact hchild hv ⟨key, hg⟩
  case some.repeated.none =>
    have hw : ∀ w ∈ vs, Holds S IsEmpty n f.codec w := by
      refine fun w hw => ⟨(ho.left hof hv).right.right w hw, ?_⟩
      rintro d' rfl
      exact hchild hv hw
    have hr := (ho.left hof hv).right.left
    simp only [hr, if_true]
    cases k
    case field =>
      dsimp only
      split
      · exact .refl hm
      · exact extend_succeeds hA hB hm hf hn hr hw
    case extension => exact extend_succeeds hA hB hm hf hn hr hw
  case some.singular.none =>
    obtain ⟨_, hr, hacc⟩ := ho.left hof hv
    simp only [hr, if_false, Bool.false_eq_true]
    split
    · exact .refl hm
    · split
      · exact .refl hm
      · refine storeSingular_succeeds hA hB hm hf hn (by simp [hr]) ⟨hacc, ?_⟩
        rintro d' rfl
        exact hchild hv rfl
  case some.map.none =>
    obtain ⟨_, hk, _⟩ := ho.left hof hv
    cases hn.symm.trans hk
  case some.singular.some => exact .refl hm
  case some.repeated.some => exact .refl hm
  case none.some => exact .refl hm
  case none.none =>
    dsimp only
    split
    · cases k <;> exact .refl hm
    · split
      · exact .refl hm
      · split <;> exact .refl hm

end

theorem mergeMember_empty {c : ClassId} : mergeMember merge S (.empty c) m k f = .ok m := by
  have hv : (Message.empty c).values k = none := rfl
  unfold mergeMember
  rw [hv]
  cases f.mapKeyCodec
  case some => rfl
  dsimp only
  split
  · cases k <;> rfl
  · split
    · rfl
    · split <;> rfl

theorem foldlM_ok {α : Type} {g : Message → α → Except DecodeFailure Message} {as : List α}
    (h : ∀ a m, g m a = .ok m) : as.foldlM g m = .ok m := by
  induction as generalizing m
  case nil => rfl
  case cons a as ih =>
    rw [List.foldlM_cons, h]
    exact ih

theorem mergeFrom_agrees : Agrees S n (mergeFrom S (n + 1)) (Message.mergeFrom S n) := by
  induction n
  case zero =>
    intro B a b hB ha hb hc
    rw [show b = _ from hb] at hc ⊢
    refine ⟨?_, rfl, ha⟩
    rw [mergeFrom, if_neg (by simpa using hc)]
    simp only [foldlM_ok fun _ _ => mergeMember_empty, Message.mergeFrom]
    exact congrArg Except.ok addUnknown_nil
  case succ n ih =>
    intro B a b hB ha hb hc
    have hfields := Succeeds.foldlM (S a.cls).fields ha fun f hf m hcm hm =>
      mergeMember_succeeds ih hB hm (hcm ▸ MessageClass.member?_of_field hf) hb (hc.trans hcm.symm)
    rw [mergeFrom, if_neg (by simpa using hc)]
    dsimp only [Message.mergeFrom]
    rw [hfields.eq]
    generalize List.foldl _ a (S a.cls).fields = m at hfields ⊢
    have hext := Succeeds.foldlM (S m.cls).extensions hfields.typed fun e he m' hcm hm =>
      mergeMember_succeeds ih hB hm (hcm ▸ MessageClass.member?_of_extension he) hb
        (hc.trans (hcm.trans hfields.cls).symm)
    refine ⟨?_, hext.cls.trans hfields.cls, hext.typed.of_values rfl fun _ _ _ _ => .inl⟩
    exact Except.bind_eq_ok_iff.mpr ⟨m, rfl, Except.bind_eq_ok_iff.mpr ⟨_, hext.eq, rfl⟩⟩

end Raising

end Protos
