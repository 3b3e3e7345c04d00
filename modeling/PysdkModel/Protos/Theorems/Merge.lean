import PysdkModel.Protos.Merge
import PysdkModel.Protos.Theorems.Node

namespace Protos

theorem Scalar.eq_iff {a b : Scalar} (h : !a.isFloat) : a.eq b ↔ a = b := by
  cases a <;> simp_all [Scalar.eq, Scalar.isFloat]

theorem Field.Floatless.not_isFloat {f : Field} (hf : f.Floatless) {s : Scalar} (h : f.codec.accepts s) :
    !s.isFloat := by
  have ⟨hc, hc', _⟩ := hf
  revert h hc hc'
  cases f.codec <;> cases s <;> simp [Codec.accepts, Scalar.isFloat]

namespace Observation

variable {μ : Type} {combine : μ → μ → μ} {f : Field} {a : Observation μ}

theorem merge_scalar {s : Scalar} : a.merge combine f (.singular (.scalar s)) =
    if !f.hasPresence && s.eq f.default then a else .singular (.scalar s) := by
  cases a
  case singular v => cases v <;> rfl
  all_goals rfl

theorem merge_absent : a.merge combine f .absent = a := by
  cases a
  case singular v => cases v <;> rfl
  all_goals rfl

end Observation

structure Value.Like (S : Schema) (U : Message.Unknowns) (n : Nat) (v w : Value Message) : Prop where
  content : ∀ j, w.map (Message.content S j) = v.map (Message.content S j)
  settled : ∀ d, w = .message d → d.Settled S U n

namespace Message

variable {S : Schema} {U : Unknowns} {n : Nat} {a b m : Message} {L : Set Key} {k : Key} {f : Field}

theorem cls_eq_of_content (h : a.content S 1 = b.content S 1) : a.cls = b.cls :=
  congrArg Node.cls h

structure Merged (S : Schema) (U : Unknowns) (n : Nat) (a b : Message) (L : Set Key) (m : Message) : Prop where
  settled : m.Settled S U (n + 1)
  cls : m.cls = a.cls
  node : ∀ j, m.node (content S j) S = Node.mergeOn (S a.cls) (Content.merge S j) L
    (a.node (content S j) S) (b.node (content S j) S)

end Message

variable {v : Value Message}

attribute [local simp] Value.acceptedBy

theorem Value.Like.acceptedBy {S : Schema} {U : Message.Unknowns} {n : Nat} {w : Value Message} {c : Codec}
    (h : v.Like S U n w) (hv : v.acceptedBy c) : w.acceptedBy c := by
  have hc := h.content 1
  cases v <;> cases w <;> simp only [Value.map, Value.message.injEq, Value.scalar.injEq, reduceCtorEq] at hc
  case scalar.scalar => exact hc ▸ hv
  case message.message d d' =>
    cases c
    case message => simpa [Message.cls_eq_of_content hc] using hv
    all_goals simp at hv

namespace Message

variable {S : Schema} {U : Unknowns} {n : Nat} {a b m : Message} {L : Set Key} {k : Key} {f : Field}

variable {keyCodec : Codec}

section

variable {μ : Type} {observe : Message → μ}

theorem members_node (hf : (S m.cls).member? k = some f) :
    (m.node observe S).members k = m.observation observe k f := by
  simp [node, hf]

theorem observation_map (hn : f.mapKeyCodec = some keyCodec) :
    m.observation observe k f = .map fun key => ((m.mapItems k).get? key).map (Value.map observe) := by
  simp [observation, hn]

theorem observation_repeated (hn : f.mapKeyCodec = none) (hr : f.repeated) :
    m.observation observe k f = .repeated ((m.repeatedItems k).map (Value.map observe)) := by
  simp [observation, hn, hr]

end

section

def setEntries (m : Message) (k : Key) (es : List (Scalar × Value Message)) : Message :=
  es.foldl (fun m (key, v) => m.setEntry k key v) m

variable {es : List (Scalar × Value Message)} {key : Scalar}

theorem mapItems_setEntry : (m.setEntry k key v).mapItems k = (m.mapItems k).set key v := by
  simp [setEntry, mapItems]

theorem setEntries_frame (m : Message) (k : Key) (es : List (Scalar × Value Message)) :
    (m.setEntries k es).cls = m.cls ∧ (m.setEntries k es).present = m.present ∧
    (m.setEntries k es).oneofs = m.oneofs ∧ (m.setEntries k es).unknownFields = m.unknownFields ∧
    ∀ k', k' ≠ k → (m.setEntries k es).values k' = m.values k' := by
  induction es generalizing m
  case nil => exact ⟨rfl, rfl, rfl, rfl, fun _ _ => rfl⟩
  case cons e es ih =>
    have ⟨hc, hp, ho, hu, hv⟩ := ih (m.setEntry k e.1 e.2)
    exact ⟨hc, hp, ho, hu, fun k' hk => (hv k' hk).trans <| Function.update_of_ne hk ..⟩

theorem get?_setEntries_of_not_mem (h : key ∉ es.map Prod.fst) :
    ((m.setEntries k es).mapItems k).get? key = (m.mapItems k).get? key := by
  induction es generalizing m
  case nil => rfl
  case cons e es ih =>
    rw [List.map_cons, List.mem_cons, not_or] at h
    have hi := ih (m := m.setEntry k e.1 e.2) h.right
    rw [mapItems_setEntry, FinMap.get?_set, if_neg h.left] at hi
    exact hi

theorem get?_setEntries_of_mem (hn : (es.map Prod.fst).Nodup) (h : (key, v) ∈ es) :
    ((m.setEntries k es).mapItems k).get? key = some v := by
  induction es generalizing m
  case nil => cases h
  case cons e es ih =>
    rw [List.map_cons, List.nodup_cons] at hn
    rcases List.mem_cons.mp h with rfl | h
    · have hi := get?_setEntries_of_not_mem (m := m.setEntry k key v) (k := k) hn.left
      rw [mapItems_setEntry, FinMap.get?_set, if_pos rfl] at hi
      exact hi
    · exact ih hn.right h

theorem Settled.setEntries (hm : m.Settled S U (n + 1)) (hf : (S m.cls).member? k = some f)
    (hn : f.mapKeyCodec = some keyCodec)
    (he : ∀ e ∈ es, keyCodec.accepts e.1 ∧ e.2.acceptedBy f.codec ∧ ∀ d, e.2 = .message d → d.Settled S U n) :
    (m.setEntries k es).Settled S U (n + 1) := by
  induction es generalizing m
  case nil => exact hm
  case cons e es ih =>
    have ⟨hkey, hv, hd⟩ := he e List.mem_cons_self
    exact ih (hm.setEntry hf hn hkey hv hd) hf fun e h => he e <| List.mem_cons_of_mem _ h

end

theorem map_eq_of_like {vs ws : List (Value Message)} (h : List.Forall₂ (Value.Like S U n) vs ws) (j : Nat) :
    ws.map (Value.map (content S j)) = vs.map (Value.map (content S j)) := by
  induction h
  case nil => rfl
  case cons hv _ ih => rw [List.map_cons, List.map_cons, hv.content j, ih]

theorem get?_setEntries {d : FinMap Scalar (Value Message)} {es ws : List (Scalar × Value Message)}
    (hp : es.Perm d.entries) (hw : List.Forall₂ (fun e w => w.1 = e.1 ∧ e.2.Like S U n w.2) es ws)
    {key : Scalar} {j : Nat} :
    (((m.setEntries k ws).mapItems k).get? key).map (Value.map (content S j)) =
      ((d.get? key).map (Value.map (content S j))).or
        (((m.mapItems k).get? key).map (Value.map (content S j))) := by
  have hkeys : ws.map Prod.fst = es.map Prod.fst := by
    clear hp
    induction hw
    case nil => rfl
    case cons h _ ih => rw [List.map_cons, List.map_cons, h.left, ih]
  have hperm : (es.map Prod.fst).Perm d.keys := FinMap.keys_entries ▸ hp.map Prod.fst
  cases hg : d.get? key
  case none =>
    have hk : key ∉ ws.map Prod.fst := by
      rw [hkeys, hperm.mem_iff, FinMap.mem_keys_iff, hg]
      exact Bool.false_ne_true
    rw [get?_setEntries_of_not_mem hk]
    rfl
  case some v =>
    have ⟨⟨key', w⟩, hw', hk, hlike⟩ := hw.exists_right <| hp.mem_iff.mpr <| FinMap.mem_entries_iff.mpr hg
    have hk : key' = key := hk
    have hnd : (ws.map Prod.fst).Nodup := by
      rw [hkeys, hperm.nodup_iff]
      exact d.nodup
    rw [get?_setEntries_of_mem hnd (hk ▸ hw'), Option.map_some, hlike.content j]
    rfl

-- A member of which nothing is written or merged. Map fields are not considered.
def Unwritten (m : Message) (k : Key) (f : Field) : Prop :=
  f.mapKeyCodec = none ∧
    if f.repeated then
      m.repeatedItems k = []
    else if f.hasPresence then
      m.present k = false
    else
      m.values k = none ∨ equalsDefault f (m.values k)

structure Written (m : Message) (k : Key) (f : Field) (v : Value Message) : Prop where
  values : m.values k = some (.singular v)
  present : f.hasPresence → m.present k
  default : ¬f.hasPresence → ¬equalsDefault f (some (.singular v))

theorem member_cases (hm : m.Local S) (hf : (S m.cls).member? k = some f) :
    (∃ keyCodec, f.mapKeyCodec = some keyCodec) ∨ (f.mapKeyCodec = none ∧ f.repeated) ∨
    (f.repeated = false ∧ m.Unwritten k f) ∨ ∃ v, f.mapKeyCodec = none ∧ f.repeated = false ∧ m.Written k f v := by
  cases hn : f.mapKeyCodec
  case some keyCodec => exact .inl ⟨keyCodec, rfl⟩
  refine .inr ?_
  by_cases hr : f.repeated
  case pos => exact .inl ⟨rfl, hr⟩
  refine .inr ?_
  have hr' : f.repeated = false := by simpa using hr
  by_cases hp : f.hasPresence
  · by_cases hpk : m.present k
    · have ⟨_, v, _, _, hv⟩ := hm.stored hpk
      exact .inr ⟨v, rfl, hr', hv, fun _ => hpk, fun h => absurd hp h⟩
    · exact .inl ⟨hr', hn, by rw [if_neg hr, if_pos hp]; simpa using hpk⟩
  · by_cases hu : m.values k = none ∨ equalsDefault f (m.values k)
    case pos => exact .inl ⟨hr', hn, by rw [if_neg hr, if_neg hp]; exact hu⟩
    rw [not_or] at hu
    have ⟨s, hs⟩ := Option.ne_none_iff_exists'.mp hu.left
    have hfit := hm.fits hf hs
    cases s
    case singular v =>
      refine .inr ⟨v, rfl, hr', hs, fun h => absurd h hp, fun _ => ?_⟩
      exact hs ▸ hu.right
    case repeated => exact absurd hfit.right.left hr
    case map => have ⟨_, h, _⟩ := hfit; simp [hn] at h

namespace Merged

variable (h : Merged S U n a b L m) (hf : (S a.cls).member? k = some f) (hL : k ∉ L)
include h hf hL

theorem observation_eq (hc : ¬Node.Cleared L (b.node (fun _ => ()) S) f) (j : Nat) :
    m.observation (content S j) k f = a.observation (content S j) k f := by
  rw [← members_node (h.cls ▸ hf), h.node j, ← members_node hf]
  exact Node.members_mergeOn_of_not_mem hf hc hL

theorem skip (hk : ∀ o number, b.oneofs o = some number → k ≠ .field number) (hc : b.cls = a.cls)
    (hn : ∀ j, (a.observation (content S j) k f).merge (Content.merge S j) f
      (b.observation (content S j) k f) = a.observation (content S j) k f) :
    Merged S U n a b (insert k L) m where
  __ := h
  node j := by
    rw [h.node j, Node.mergeOn_insert_of_neutral hk hf hL]
    rw [members_node hf, members_node (hc.symm ▸ hf)]
    exact hn j

section

variable (hb : b.Local S) (hc : b.cls = a.cls)
include hb hc

omit h hL in
theorem node_container (hs : ¬f.isSingular) (j : Nat) :
    Node.mergeOn (S a.cls) (Content.merge S j) (insert k L) (a.node (content S j) S) (b.node (content S j) S) =
      (Node.mergeOn (S a.cls) (Content.merge S j) L (a.node (content S j) S) (b.node (content S j) S)).update k
        ((a.observation (content S j) k f).merge (Content.merge S j) f (b.observation (content S j) k f)) := by
  have hb' : (b.node (content S j) S).Consistent (S a.cls) := hc ▸ hb.consistent
  rw [Node.mergeOn_insert_container hb' hf hs, members_node hf, members_node (hc.symm ▸ hf)]

theorem extend (hn : f.mapKeyCodec = none) (hr : f.repeated) {ws : List (Value Message)}
    (hw : List.Forall₂ (Value.Like S U n) (b.repeatedItems k) ws) : Merged S U n a b (insert k L) (m.extend k ws) where
  __ := h
  settled := by
    refine h.settled.extend (h.cls ▸ hf) hn hr (fun w hw' => ?_) (fun d hd => ?_)
    · have ⟨v, hv, hvw⟩ := hw.exists_left hw'
      have ⟨vs, hvs, hv⟩ := mem_repeatedItems hv
      exact hvw.acceptedBy <| (hb.fits (hc.symm ▸ hf) hvs).right.right v hv
    · have ⟨v, _, hvw⟩ := hw.exists_left hd
      exact hvw.settled d rfl
  node j := by
    have hs : ¬f.isSingular := by simp [Field.isSingular, hr]
    have ho := h.observation_eq hf hL (Node.not_cleared_of_container hs) j
    rw [observation_repeated hn hr, observation_repeated hn hr, Observation.repeated.injEq] at ho
    have hw' : ws.map (Value.map (content S j)) = (b.repeatedItems k).map (Value.map (content S j)) :=
      map_eq_of_like hw j
    rw [node_container hf hb hc hs, ← h.node j, node_extend (h.cls ▸ hf) hn hr,
      observation_repeated hn hr, observation_repeated hn hr, List.map_append, ho, hw']
    rfl

theorem setEntries (hn : f.mapKeyCodec = some keyCodec)
    {es ws : List (Scalar × Value Message)} (hp : es.Perm (b.mapItems k).entries)
    (hw : List.Forall₂ (fun e w => w.1 = e.1 ∧ e.2.Like S U n w.2) es ws) :
    Merged S U n a b (insert k L) (m.setEntries k ws) := by
  have hf' : (S b.cls).member? k = some f := hc ▸ hf
  have hget {e} (he : e ∈ es) : (b.mapItems k).get? e.1 = some e.2 :=
    FinMap.mem_entries_iff.mp <| hp.mem_iff.mp he
  have ⟨hcls, hpres, ho, hu, hv⟩ := setEntries_frame m k ws
  refine ⟨h.settled.setEntries (h.cls ▸ hf) hn fun w hw' => ?_, hcls.trans h.cls, fun j => ?_⟩
  · have ⟨e, he, hkey, hlike⟩ := hw.exists_left hw'
    have ⟨d, hd, hed⟩ := get?_mapItems (hget he)
    have ⟨keyCodec', hn', hfit⟩ := hb.fits hf' hd
    cases hn.symm.trans hn'
    have ⟨ha, ha'⟩ := hfit e.1 e.2 hed
    exact ⟨hkey ▸ ha, hlike.acceptedBy ha', hlike.settled⟩
  · have hs : ¬f.isSingular := by simp [Field.isSingular, hn]
    rw [node_container hf hb hc hs, ← h.node j, node_eq_update _ (h.cls ▸ hf) hcls ho hu hv fun k' _ => by rw [hpres]]
    have hma := h.observation_eq hf hL (Node.not_cleared_of_container hs) j
    rw [observation_map hn, observation_map hn, Observation.map.injEq] at hma
    rw [observation_map hn, observation_map hn, observation_map hn, Observation.merge]
    congr 2
    funext key
    rw [get?_setEntries hp hw, congrFun hma key]

theorem store (ha : a.Local S) {w : Value Message} {r : Message} (hs : m.Stores k f w r)
    (hv : b.values k = some (.singular v)) (hp : f.hasPresence → b.present k) (hw : (Slot.singular w).Fits f)
    (hd : ∀ d, w = .message d → d.Settled S U n)
    (hwv : ∀ j, .singular (w.map (content S j)) = (m.observation (content S j) k f).merge (Content.merge S j) f
      (.singular (v.map (content S j)))) :
    Merged S U n a b (insert k L) r where
  settled := hs.settled h.settled (h.cls ▸ hf) hw hd
  cls := hs.cls.trans h.cls
  node j := by
    have hf' : (S b.cls).member? k = some f := hc ▸ hf
    have ha' : (a.node (content S j) S).Consistent (S a.cls) := ha.consistent
    have hb' : (b.node (content S j) S).Consistent (S a.cls) := hc ▸ hb.consistent
    have hsel o (ho : f.oneof = some o) : b.oneofs o = some f.number := by
      have hk := MessageClass.key_of_oneof hf ho
      subst hk
      exact hb.oneof.mpr ⟨f, hf', ho, hp <| Field.hasPresence_of_oneof ho⟩
    have hob : b.observation (content S j) k f = .singular (v.map (content S j)) := by
      have ⟨hn, hr, _⟩ := hb.fits hf' hv
      by_cases hpres : f.hasPresence
      · simp [observation, hn, hr, hpres, hv, hp hpres]
      · simp [observation, hn, hr, hpres, hv]
    rw [Node.mergeOn_insert_singular hb' hf hsel ha' hL, ← h.node j, members_node hf, members_node hf', hob,
      ← h.observation_eq hf hL (Node.not_cleared_of_selected hsel), ← hwv j]
    exact hs.node_eq h.settled.left.isLocal.selects (h.cls ▸ hf) hw

theorem skip_of_unwritten (hfl : f.Floatless) (hu : b.Unwritten k f) : Merged S U n a b (insert k L) m := by
  have hf' : (S b.cls).member? k = some f := hc ▸ hf
  obtain ⟨hn, hu⟩ := hu
  refine h.skip hf hL (fun o number hs hk => ?_) hc fun j => ?_
  · -- A oneof that selects the member makes it present.
    subst hk
    obtain ⟨g, hg, ho, hp⟩ := hb.oneof.mp hs
    cases hg.symm.trans hf'
    obtain ⟨_, v, _, _, hv⟩ := hb.stored hp
    obtain ⟨_, hr, _⟩ := hb.fits hf' hv
    rw [if_neg hr, if_pos (Field.hasPresence_of_oneof ho), hp] at hu
    cases hu
  · by_cases hr : f.repeated
    · rw [if_pos hr] at hu
      rw [observation_repeated hn hr, observation_repeated hn hr, hu, List.map_nil, Observation.merge,
        List.append_nil]
    · rw [if_neg hr] at hu
      by_cases hp : f.hasPresence
      · rw [if_pos hp] at hu
        have ho : b.observation (content S j) k f = .absent := by simp [observation, hn, hr, hp, hu]
        rw [ho, Observation.merge_absent]
      · rw [if_neg hp] at hu
        obtain ⟨s, hs, ho⟩ : ∃ s : Scalar, s.eq f.default ∧
            b.observation (content S j) k f = .singular (.scalar s) := by
          rcases hu with hu | hu
          · exact ⟨f.default, (Scalar.eq_iff hfl.right.right).mpr rfl, by simp [observation, hn, hr, hp, hu]⟩
          · unfold equalsDefault at hu
            split at hu
            case h_1 s hs => exact ⟨s, hu, by simp [observation, hn, hr, hp, hs, Value.map]⟩
            case h_2 => cases hu
        rw [ho, Observation.merge_scalar, if_pos (by simpa [hp] using hs)]

end

end Merged

section

variable {copy : Message → Message} {merge : Message → Message → Message} {other : Message}

theorem mergeMember_map (hn : f.mapKeyCodec = some keyCodec) :
    mergeMember copy merge S other m k f =
      m.setEntries k ((other.mapItems k).entries.map fun e => (e.1, e.2.map copy)) := by
  unfold mergeMember mapItems
  rw [setEntries, List.foldl_map, hn]
  split
  case h_1 d _ hv => rw [hv]
  case h_2 hv =>
    split
    case h_1 d hd => exact absurd hd <| hv d
    case h_2 => rfl
  case h_3 h => cases h

theorem mergeMember_repeated (hn : f.mapKeyCodec = none) (hr : f.repeated) :
    (mergeMember copy merge S other m k f = m ∧ other.repeatedItems k = []) ∨
    mergeMember copy merge S other m k f = m.extend k ((other.repeatedItems k).map (Value.map copy)) := by
  unfold mergeMember repeatedItems
  simp only [hn, hr, if_true]
  rcases hv : other.values k with _ | (_ | vs | _)
  case some.repeated =>
    cases k
    case extension => exact .inr rfl
    case field =>
      cases vs
      case nil => exact .inl ⟨rfl, rfl⟩
      case cons => exact .inr rfl
  all_goals exact .inl ⟨by cases k <;> rfl, rfl⟩

theorem mergeMember_unwritten (hr : f.repeated = false) (hu : other.Unwritten k f) :
    mergeMember copy merge S other m k f = m := by
  have ⟨hn, hu⟩ := hu
  rw [if_neg (by simp [hr])] at hu
  by_cases hp : f.hasPresence
  · rw [if_pos hp] at hu
    simp [mergeMember, hn, hr, hp, hu]
  · rw [if_neg hp] at hu
    simp [mergeMember, hn, hr, hp, hu]

theorem mergeMember_written (hn : f.mapKeyCodec = none) (hr : f.repeated = false) (hw : other.Written k f v) :
    mergeMember copy merge S other m k f = storeSingular copy merge S m k f v := by
  by_cases hp : f.hasPresence
  · simp [mergeMember, hn, hr, hp, hw.values, hw.present hp]
  · simp [mergeMember, hn, hr, hp, hw.values, hw.default hp]

end

def Merges (S : Schema) (U : Unknowns) (n : Nat) (merge : Message → Message → Message) : Prop :=
  ∀ a b, a.Settled S U n → b.Sound S U n → b.cls = a.cls →
    (merge a b).Settled S U n ∧
    ∀ j, (merge a b).content S j = Content.merge S j (a.content S j) (b.content S j)

def Copies (S : Schema) (U : Unknowns) (n : Nat) (copy : Message → Message) : Prop :=
  ∀ c, c.Sound S U n → (copy c).Settled S U n ∧ ∀ j, (copy c).content S j = c.content S j

section

variable {copy : Message → Message} {merge : Message → Message → Message} {v : Value Message}

theorem Copies.like (hcopy : Copies S U n copy) (hv : ∀ d, v = .message d → d.Sound S U n) :
    v.Like S U n (v.map copy) := by
  cases v
  case scalar => exact ⟨fun _ => rfl, nofun⟩
  case message c =>
    have ⟨hs, hc⟩ := hcopy c <| hv c rfl
    refine ⟨fun j => congrArg Value.message (hc j), ?_⟩
    rintro d ⟨⟩
    exact hs

theorem Copies.like_copy (hcopy : Copies S U n copy) {w : Value Message} (h : v.Like S U n w) :
    v.Like S U n (w.map copy) := by
  have hc := hcopy.like fun d hd => (h.settled d hd).sound
  exact ⟨fun j => (hc.content j).trans (h.content j), hc.settled⟩

theorem mergeValue_spec (hcopy : Copies S U n copy) (hmerge : Merges S U n merge) (hm : m.Settled S U (n + 1))
    (hf : (S m.cls).member? k = some f) (hv : (Slot.singular v).Fits f)
    (hs : ∀ d, v = .message d → d.Sound S U n) :
    (Slot.singular (mergeValue copy merge m k f v)).Fits f ∧
    (∀ d, mergeValue copy merge m k f v = .message d → d.Settled S U n) ∧
    ((¬f.hasPresence → ¬equalsDefault f (some (.singular v))) → ∀ j,
      .singular ((mergeValue copy merge m k f v).map (content S j)) =
      (m.observation (content S j) k f).merge (Content.merge S j) f (.singular (v.map (content S j)))) := by
  have hn := hv.left
  have hr := hv.right.left
  have hacc := hv.right.right
  cases v
  case scalar s =>
    refine ⟨hv, by rintro _ ⟨⟩, fun hd j => ?_⟩
    have hne : ¬(!f.hasPresence && s.eq f.default) := by
      simpa [equalsDefault] using hd
    rw [Value.map, Observation.merge_scalar, if_neg hne]
    rfl
  case message c =>
    have hlike := hcopy.like hs
    have hcodec : f.codec = .message c.cls := by
      cases hfc : f.codec <;> simp [hfc] at hacc
      rw [hacc]
    have hp : f.hasPresence := by simp [Field.hasPresence, Field.message, Field.map, hcodec, hn, Codec.isMessage]
    have hmsg : f.message := by simp [Field.message, hcodec, Codec.isMessage]
    cases hst : m.values k
    case none =>
      have hmv : mergeValue copy merge m k f (.message c) = .message (copy c) := by
        simp [mergeValue, hst, Value.map]
      rw [hmv]
      refine ⟨⟨hn, hr, hlike.acceptedBy hacc⟩, hlike.settled, fun _ j => ?_⟩
      have ho : m.observation (content S j) k f = .absent := by simp [observation, hn, hr, hp, hst]
      rw [ho, ← hlike.content j]
      rfl
    case some s =>
      obtain ⟨st, hs', hcls⟩ : ∃ st : Message, s = .singular (.message st) ∧ st.cls = c.cls := by
        have hfit := hm.left.isLocal.fits hf hst
        rcases s with v | _ | _
        case singular =>
          cases v
          case scalar => simp [Slot.Fits, hcodec, Codec.accepts] at hfit
          case message st => exact ⟨st, rfl, by simpa [hcodec] using hfit.right.right⟩
        case repeated => exact absurd hfit.right.left hr
        case map => obtain ⟨_, h, _⟩ := hfit; simp [hn] at h
      subst hs'
      -- The stored child is present, so the value is merged into it.
      have hpk : m.present k := hm.left.noStale k f _ hf hp hst
      have hmv : mergeValue copy merge m k f (.message c) = .message (merge st (copy c)) := by
        cases k <;> simp [mergeValue, hst, Slot.message?, Value.message?, mergesInto, hmsg, hpk]
      obtain ⟨hcs, hcc⟩ := hcopy c <| hs c rfl
      have hcls' : (copy c).cls = st.cls := (cls_eq_of_content (hcc 1)).trans hcls.symm
      obtain ⟨hms, hmc⟩ := hmerge st (copy c) (hm.of_mem hf hst rfl) hcs.sound hcls'
      have hcls'' : (merge st (copy c)).cls = st.cls := congrArg Node.cls (hmc 1)
      rw [hmv]
      refine ⟨⟨hn, hr, by simp [hcodec, hcls'', hcls]⟩, ?_, fun _ j => ?_⟩
      · rintro d ⟨⟩
        exact hms
      · have ho : m.observation (content S j) k f = .singular (.message (st.content S j)) := by
          simp [observation, hn, hr, hp, hpk, hst, Value.map]
        rw [ho, Value.map, Value.map, hmc j, hcc j]
        rfl

theorem Sound.of_mem (hm : m.Sound S U (n + 1)) (hf : (S m.cls).member? k = some f) {s : Slot Message}
    (hs : m.values k = some s) {d : Message} (hd : s.Contains (.message d))
    (hp : (∃ w, s = .singular w) → f.hasPresence → m.present k) : d.Sound S U n :=
  hm.right d ⟨k, f, s, hf, hs, hd, hp⟩

theorem Merged.mergeMember (hcopy : Copies S U n copy) (hmerge : Merges S U n merge) (hfl : f.Floatless)
    (ha : a.Local S) (hb : b.Sound S U (n + 1)) (hc : b.cls = a.cls) (h : Merged S U n a b L m)
    (hf : (S a.cls).member? k = some f) (hL : k ∉ L) :
    Merged S U n a b (insert k L) (mergeMember copy merge S b m k f) := by
  have hf' : (S b.cls).member? k = some f := hc ▸ hf
  rcases member_cases hb.left.isLocal hf' with ⟨keyCodec, hn⟩ | ⟨hn, hr⟩ | ⟨hr, hu⟩ | ⟨v, hn, hr, hw⟩
  · rw [mergeMember_map hn]
    refine h.setEntries hf hL hb.left.isLocal hc hn (.refl _) <| List.forall₂_map_right_iff.mpr ?_
    refine List.forall₂_same.mpr fun e he => ⟨rfl, hcopy.like fun d hd => ?_⟩
    have ⟨g, hg, hget⟩ := get?_mapItems <| FinMap.mem_entries_iff.mp he
    exact hb.of_mem hf' hg ⟨e.1, hd ▸ hget⟩ (fun ⟨_, h⟩ => nomatch h)
  · rcases mergeMember_repeated hn hr with ⟨he, hi⟩ | he
    · rw [he]
      exact h.skip_of_unwritten hf hL hb.left.isLocal hc hfl ⟨hn, by rw [if_pos hr]; exact hi⟩
    · rw [he]
      refine h.extend hf hL hb.left.isLocal hc hn hr <| List.forall₂_map_right_iff.mpr ?_
      refine List.forall₂_same.mpr fun v hv => hcopy.like fun d hd => ?_
      have ⟨vs, hvs, hv⟩ := mem_repeatedItems hv
      exact hb.of_mem hf' hvs (hd ▸ hv) (fun ⟨_, h⟩ => nomatch h)
  · rw [mergeMember_unwritten hr hu]
    exact h.skip_of_unwritten hf hL hb.left.isLocal hc hfl hu
  · rw [mergeMember_written hn hr hw]
    have hs d (hd : v = .message d) : d.Sound S U n :=
      hb.of_mem hf' hw.values hd.symm fun _ => hw.present
    have hmf : (S m.cls).member? k = some f := h.cls ▸ hf
    have ⟨hfit, hset, hval⟩ := mergeValue_spec hcopy hmerge h.settled hmf (hb.left.isLocal.fits hf' hw.values) hs
    exact h.store hf hL hb.left.isLocal hc ha
      (storeValue_stores h.settled.left.isLocal.selects hmf) hw.values hw.present
      hfit hset (hval hw.default)

end

-- A loop over members that have not been merged before, where `C m bs m'` means that the loop takes `m` to
-- `m'` by way of `bs`.
theorem Merged.run {α β : Type} {key : α → Key} {W : α → β → Prop} {C : Message → List β → Message → Prop}
    {as : List α} {bs : List β} (hnil : ∀ m, C m [] m)
    (hstep : ∀ {L m x y}, x ∈ as → W x y → key x ∉ L → Merged S U n a b L m →
      ∃ m', Merged S U n a b (insert (key x) L) m' ∧ ∀ {ys m''}, C m' ys m'' → C m (y :: ys) m'')
    (hw : List.Forall₂ W as bs) (hn : (as.map key).Nodup) (h : Merged S U n a b L m) (hL : ∀ x ∈ as, key x ∉ L) :
    ∃ m', C m bs m' ∧ Merged S U n a b ({ k | ∃ x ∈ as, key x = k } ∪ L) m' := by
  induction hw generalizing L m
  case nil => exact ⟨m, hnil m, by simpa using h⟩
  case cons x y as bs hxy _ ih =>
    rw [List.map_cons, List.nodup_cons] at hn
    have ⟨m₁, h₁, hc₁⟩ := hstep List.mem_cons_self hxy (hL x List.mem_cons_self) h
    have hL' z (hz : z ∈ as) : key z ∉ insert (key x) L := by
      rintro (he | hm)
      · exact hn.left <| he ▸ List.mem_map_of_mem hz
      · exact hL z (List.mem_cons_of_mem x hz) hm
    have ⟨m₂, hc₂, h₂⟩ := ih (fun hz => hstep <| List.mem_cons_of_mem x hz) hn.right h₁ hL'
    refine ⟨m₂, hc₁ hc₂, ?_⟩
    convert h₂ using 1
    ext k
    simp [or_assoc, eq_comm]

theorem Merged.foldl {α : Type} {key : α → Key} {step : Message → α → Message} {as : List α}
    (hstep : ∀ {L m x}, x ∈ as → key x ∉ L → Merged S U n a b L m → Merged S U n a b (insert (key x) L) (step m x))
    (hn : (as.map key).Nodup) (h : Merged S U n a b L m) (hL : ∀ x ∈ as, key x ∉ L) :
    Merged S U n a b ({ k | ∃ x ∈ as, key x = k } ∪ L) (as.foldl step m) := by
  have ⟨_, hm, h'⟩ := h.run (C := fun m as m' => as.foldl step m = m') (W := Eq) (fun _ => rfl)
    (fun hx he hL h => ⟨_, hstep hx hL h, fun hc => he ▸ hc⟩) (List.forall₂_same.mpr fun _ _ => rfl) hn hL
  exact hm ▸ h'

theorem Merged.start (ha : a.Settled S U (n + 1)) : Merged S U n a b ∅ a :=
  ⟨ha, rfl, fun _ => (Node.mergeOn_empty ha.left.isLocal.consistent).symm⟩

theorem Merged.finish (hb : b.IsSound S U n) (hc : b.cls = a.cls) (h : Merged S U n a b L m)
    (hL : ∀ k f, (S a.cls).member? k = some f → k ∈ L) :
    (m.addUnknown b.unknownFields).Settled S U (n + 1) ∧
    ∀ j, (m.addUnknown b.unknownFields).content S j =
      Content.merge S j (a.content S j) (b.content S j) := by
  refine ⟨h.settled.addUnknown (h.cls ▸ hc ▸ hb.unknown), fun j => ?_⟩
  cases j
  case zero => rfl
  case succ j =>
    have hb' : (b.node (content S j) S).Consistent (S a.cls) := hc ▸ hb.isLocal.consistent
    have hn := (h.node j).trans <| Node.mergeOn_eq_univ hb' hL
    have hu : m.unknownFields = a.unknownFields := congrArg Node.unknownFields hn
    have hm := congrArg Node.members hn
    have ho := congrArg Node.oneofs hn
    exact Node.ext h.cls hm ho <| congrArg (· ++ b.unknownFields) hu

section

variable {μ : Type} {observe : Message → μ} {combine : μ → μ → μ} {c : ClassId}

theorem merge_observation_empty (hm : m.Local S) (hf : (S m.cls).member? k = some f) (hfl : f.Floatless) :
    ((empty c).observation observe k f).merge combine f (m.observation observe k f) =
      m.observation observe k f := by
  cases hn : f.mapKeyCodec
  case some keyCodec =>
    rw [observation_map hn, observation_map hn, Observation.merge]
    congr 1
    funext key
    exact Option.or_none
  case none =>
    by_cases hr : f.repeated
    case pos => rw [observation_repeated hn hr, observation_repeated hn hr]; rfl
    have hv : (empty c).values k = none := rfl
    have hp : (empty c).present k = false := rfl
    by_cases hpres : f.hasPresence
    · have ho : (empty c).observation observe k f = .absent := by simp [observation, hn, hr, hpres, hp]
      rw [ho]
      rcases hmo : m.observation observe k f with _ | v | _ | _
      case singular =>
        cases v
        case scalar => rw [Observation.merge_scalar, if_neg (by simp [hpres])]
        case message => rfl
      all_goals rfl
    · have ho : (empty c).observation observe k f = .singular (.scalar f.default) := by
        simp [observation, hn, hr, hpres, hv]
      obtain ⟨s, hs, hmo⟩ : ∃ s : Scalar, (s = f.default ∨ f.codec.accepts s) ∧
          m.observation observe k f = .singular (.scalar s) := by
        rcases hv : m.values k with _ | (v | _ | _)
        case some.singular =>
          obtain ⟨_, _, hacc⟩ := hm.fits hf hv
          cases v
          case scalar s => exact ⟨s, .inr hacc, by simp [observation, hn, hr, hpres, hv, Value.map]⟩
          case message d =>
            refine absurd ?_ hpres
            cases hc : f.codec <;> simp [hc] at hacc
            simp [Field.hasPresence, Field.message, Field.map, hc, hn, Codec.isMessage]
        all_goals exact ⟨f.default, .inl rfl, by simp [observation, hn, hr, hpres, hv]⟩
      rw [ho, hmo, Observation.merge_scalar]
      split
      case isFalse => rfl
      case isTrue he =>
        -- Without floats only the default itself equals the default.
        have hne : !s.isFloat := hs.elim (fun h => h ▸ hfl.right.right) hfl.not_isFloat
        rw [(Scalar.eq_iff hne).mp <| by simpa [hpres] using he]

theorem merge_node_empty (hS : S.Floatless) (hm : m.Local S) :
    Node.merge (S m.cls) combine ((empty m.cls).node observe S) (m.node observe S) = m.node observe S := by
  have hcon : (m.node observe S).Consistent (S m.cls) := hm.consistent
  ext1
  case cls => rfl
  case unknownFields => exact List.nil_append _
  case oneofs =>
    funext o
    change (Node.mergeOn (S m.cls) combine .univ ((empty m.cls).node observe S) (m.node observe S)).oneofs o = _
    cases hs : (m.node observe S).oneofs o
    case none => rw [Node.oneofs_mergeOn_of_not_mem (by simp [hs])]; rfl
    case some => exact Node.oneofs_mergeOn_of_mem hs (Set.mem_univ _)
  case members =>
    funext k
    cases hf : (S m.cls).member? k
    case none => exact (Node.members_mergeOn_of_none hf).trans (hcon.declared hf).symm
    case some f =>
      by_cases hcl : Node.Cleared Set.univ (m.node observe S) f
      · have ⟨hs, _, _, o, number, ho, hsel, _, hn⟩ := hcl
        refine (Node.members_mergeOn_of_cleared hf hcl).trans (hcon.absent hf hs ho ?_).symm
        simpa [hsel] using hn
      · refine (Node.members_mergeOn_of_mem hf hcl (Set.mem_univ _)).trans ?_
        have hfe : (S (empty m.cls).cls).member? k = some f := hf
        rw [members_node hfe, members_node hf]
        exact merge_observation_empty hm hf (hS hf)

end

theorem content_merge_empty (hS : S.Floatless) (hm : m.Local S) {j : Nat} :
    Content.merge S j ((empty m.cls).content S j) (m.content S j) = m.content S j := by
  cases j
  case zero => rfl
  case succ => exact merge_node_empty hS hm

theorem merges_mergeFrom (hS : S.Floatless) : Merges S U n (mergeFrom S n) ∧ Copies S U n (copy S n) := by
  induction n
  case zero =>
    refine ⟨fun a b ha hb hc => ⟨ha, fun j => ?_⟩, fun c hc => ?_⟩
    · have hb : b = empty b.cls := hb
      have ha : a = empty a.cls := ha
      rw [mergeFrom, hb, ha, ← hc]
      exact (content_merge_empty hS .empty).symm
    · have hc : c = empty c.cls := hc
      rw [hc]
      exact ⟨.empty, fun _ => rfl⟩
  case succ n ih =>
    suffices hm : Merges S U (n + 1) (mergeFrom S (n + 1)) by
      refine ⟨hm, fun c hc => ?_⟩
      have ⟨hs, he⟩ := hm (.empty c.cls) c .empty hc rfl
      exact ⟨hs, fun j => (he j).trans <| content_merge_empty hS hc.left.isLocal⟩
    intro a b ha hb hc
    have hstep {k f L m} (hf : (S a.cls).member? k = some f) (hL : k ∉ L) (h : Merged S U n a b L m) :
        Merged S U n a b (insert k L) (mergeMember (fun c => mergeFrom S n (.empty c.cls) c)
          (mergeFrom S n) S b m k f) :=
      h.mergeMember ih.right ih.left (hS hf) ha.left.isLocal hb hc hf hL
    have h₁ := (Merged.start (b := b) ha).foldl (fun hf => hstep <| MessageClass.member?_of_field hf)
      MessageClass.nodup_keys (fun _ _ => Set.notMem_empty _)
    have h₂ := h₁.foldl (fun he => hstep <| MessageClass.member?_of_extension he)
      MessageClass.nodup_extension_keys (by simp [Extension.key, Field.key])
    simp only [mergeFrom, h₁.cls]
    refine h₂.finish hb.left hc fun k f hf => ?_
    rcases MessageClass.mem_of_member? hf with h | h
    · exact .inr <| .inl h
    · exact .inl h

end Message

end Protos
