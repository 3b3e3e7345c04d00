import PysdkModel.Protos.Theorems.RoundTrip

-- Messages with the same content have the same deterministic bytes.

namespace Protos

-- The keys of maps are never floats, which have no total order.
def Schema.KeysOrdered (S : Schema) : Prop :=
  ∀ ⦃c k f⦄, (S c).member? k = some f → f.mapKeyCodec ≠ some .float ∧ f.mapKeyCodec ≠ some .double

-- The defaults of fields without presence equal themselves, unlike NaN.
def Schema.DefaultsEqual (S : Schema) : Prop :=
  ∀ ⦃c k f⦄, (S c).member? k = some f → ¬f.hasPresence → f.default.eq f.default

namespace Codec

variable {c : Codec} (hf : c ≠ .float) (hd : c ≠ .double)
include hf hd

theorem accepts_cases : (∀ a, c.accepts a → ∃ i, a = .int i) ∨ (∀ a, c.accepts a → ∃ b, a = .bool b) ∨
    (∀ a, c.accepts a → ∃ t, a = .string t) ∨ ∀ a, c.accepts a → ∃ b, a = .bytes b := by
  cases c
  case float => exact absurd rfl hf
  case double => exact absurd rfl hd
  case bool =>
    refine .inr <| .inl fun a ha => ?_
    cases a <;> simp_all [accepts]
  case string =>
    refine .inr <| .inr <| .inl fun a ha => ?_
    cases a <;> simp_all [accepts]
  case bytes =>
    refine .inr <| .inr <| .inr fun a ha => ?_
    cases a <;> simp_all [accepts]
  all_goals
    refine .inl fun a ha => ?_
    cases a <;> simp_all [accepts]

theorem orders_le {keys : List Scalar} (hk : ∀ key ∈ keys, c.accepts key) : FinMap.Orders (fun a b => a.le b) keys := by
  rcases accepts_cases hf hd with h | h | h | h
  all_goals
    refine ⟨fun a ha b hb => ?_, fun a ha b hb d hd => ?_, fun a ha b hb => ?_⟩
    all_goals
      obtain ⟨a, rfl⟩ := h a (hk a ha)
      obtain ⟨b, rfl⟩ := h b (hk b hb)
      simp only [Scalar.le, decide_eq_true_eq]
  case inl.refine_1 | inr.inr.inl.refine_1 | inr.inr.inr.refine_1 => exact le_total _ _
  case inl.refine_2 | inr.inr.inl.refine_2 | inr.inr.inr.refine_2 =>
    obtain ⟨d, rfl⟩ := h d (hk d hd)
    simpa only [Scalar.le, decide_eq_true_eq] using le_trans
  case inl.refine_3 | inr.inr.inl.refine_3 => exact fun hab hba => congrArg _ (le_antisymm hab hba)
  case inr.inr.inr.refine_3 =>
    intro hab hba
    have hinj := List.map_injective_iff.mpr fun _ _ => UInt8.toNat.inj
    exact congrArg _ (hinj (le_antisymm hab hba))
  case inr.inl.refine_1 => cases a <;> simp
  case inr.inl.refine_2 =>
    obtain ⟨d, rfl⟩ := h d (hk d hd)
    cases a <;> cases b <;> cases d <;> simp
  case inr.inl.refine_3 => cases a <;> cases b <;> simp

end Codec

namespace Message

-- The dictionaries of the message and of all messages that are observed in it are consistent.
def Consistent (S : Schema) (m : Message) : Prop :=
  ∀ d c, Within S d m c → c.Local S

theorem Consistent.child {S : Schema} {m c : Message} (h : m.Consistent S) (hc : m.Observed S (.message c)) :
    c.Consistent S :=
  fun d e he => h (d + 1) e (.child hc he)

structure Alike (S : Schema) (m m' : Message) : Prop where
  content : m.SameContent S m'
  left : m.Consistent S
  right : m'.Consistent S

end Message

namespace Value

structure Alike (S : Schema) (v v' : Value Message) : Prop where
  content : ∀ n, v.map (Message.content S n) = v'.map (Message.content S n)
  left : ∀ c, v = .message c → c.Consistent S
  right : ∀ c, v' = .message c → c.Consistent S

variable {S : Schema} {v v' : Value Message}

theorem Alike.cases (h : v.Alike S v') :
    (∃ s, v = .scalar s ∧ v' = .scalar s) ∨ ∃ c c', v = .message c ∧ v' = .message c' ∧ c.Alike S c' := by
  have hc := h.content
  rcases v with s | c <;> rcases v' with s' | c' <;> simp only [map, Value.scalar.injEq, Value.message.injEq,
    reduceCtorEq, forall_const] at hc
  case scalar.scalar => exact .inl ⟨s, rfl, by rw [hc]⟩
  case message.message => exact .inr ⟨c, c', rfl, rfl, hc, h.left c rfl, h.right c' rfl⟩

end Value

namespace Message

variable {S : Schema} {m m' : Message} {k : Key} {f : Field} {v : Value Message}

theorem Alike.symm (h : m.Alike S m') : m'.Alike S m :=
  ⟨fun n => (h.content n).symm, h.right, h.left⟩

theorem Alike.cls (h : m.Alike S m') : m.cls = m'.cls :=
  cls_eq_of_content (h.content 1)

theorem Alike.member (h : m.Alike S m') (hf : (S m.cls).member? k = some f) : (S m'.cls).member? k = some f :=
  h.cls ▸ hf

theorem Alike.isLocal (h : m.Alike S m') : m.Local S :=
  h.left 0 m .here

theorem Alike.observation (h : m.Alike S m') (hf : (S m.cls).member? k = some f) (n : Nat) :
    m.observation (Message.content S n) k f = m'.observation (Message.content S n) k f := by
  have hm := congrArg (Node.members · k) (h.content (n + 1))
  have hf' := h.member hf
  simpa [Message.content, node, hf, hf'] using hm

theorem Alike.value {v' : Value Message} (h : m.Alike S m')
    (hc : ∀ n, v.map (Message.content S n) = v'.map (Message.content S n)) (hv : m.Observed S v)
    (hv' : m'.Observed S v') : v.Alike S v' where
  content := hc
  left _ e := h.left.child (e ▸ hv)
  right _ e := h.right.child (e ▸ hv')

theorem observed_of_get? {key : Scalar} (hf : (S m.cls).member? k = some f)
    (hv : (m.mapItems k).get? key = some v) : m.Observed S v := by
  have ⟨d, hd, hv⟩ := get?_mapItems hv
  exact ⟨k, f, _, hf, hd, ⟨key, hv⟩, nofun⟩

theorem observed_of_mem (hf : (S m.cls).member? k = some f) (hv : v ∈ m.repeatedItems k) : m.Observed S v := by
  have ⟨vs, hvs, hv⟩ := mem_repeatedItems hv
  exact ⟨k, f, _, hf, hvs, hv, nofun⟩

theorem Written.observed (hf : (S m.cls).member? k = some f) (hw : m.Written k f v) : m.Observed S v :=
  ⟨k, f, _, hf, hw.values, rfl, fun _ => hw.present⟩

variable {keyCodec : Codec}

theorem Alike.get? (h : m.Alike S m') (hf : (S m.cls).member? k = some f)
    (hn : f.mapKeyCodec = some keyCodec) (n : Nat) (key : Scalar) :
    ((m.mapItems k).get? key).map (Value.map (Message.content S n)) =
    ((m'.mapItems k).get? key).map (Value.map (Message.content S n)) := by
  have ho := h.observation hf n
  simp only [Message.observation, hn, Observation.map.injEq] at ho
  exact congrFun ho key

theorem Local.orders_keys (hm : m.Local S) (hS : S.KeysOrdered)
    (hf : (S m.cls).member? k = some f) (hn : f.mapKeyCodec = some keyCodec) :
    FinMap.Orders (fun a b => a.le b) (m.mapItems k).keys := by
  have ⟨hfloat, hdouble⟩ := hS hf
  rw [hn, Ne, Option.some.injEq] at hfloat hdouble
  refine Codec.orders_le hfloat hdouble fun key hkey => ?_
  have ⟨v, hv⟩ := Option.isSome_iff_exists.mp <| FinMap.mem_keys_iff.mp hkey
  have ⟨d, hd, hv⟩ := get?_mapItems hv
  have ⟨keyCodec', hn', hfit⟩ := hm.fits hf hd
  cases hn.symm.trans hn'
  exact (hfit key v hv).left

theorem Alike.entries (h : m.Alike S m') (hS : S.KeysOrdered)
    (hf : (S m.cls).member? k = some f) (hn : f.mapKeyCodec = some keyCodec) :
    List.Forall₂ (fun e e' => e.1 = e'.1 ∧ e.2.Alike S e'.2)
      (writtenEntries true (m.mapItems k)) (writtenEntries true (m'.mapItems k)) := by
  have hf' := h.member hf
  have ho {m : Message} (hf : (S m.cls).member? k = some f) e (he : e ∈ writtenEntries true (m.mapItems k)) :
      m.Observed S e.2 :=
    observed_of_get? hf <| FinMap.mem_entries_iff.mp <| writtenEntries_perm.mem_iff.mp he
  have hsorted n := FinMap.sorted_eq (h.isLocal.orders_keys hS hf hn) (h.symm.isLocal.orders_keys hS hf' hn)
    (h.get? hf hn n)
  refine (List.forall₂_of_map_eq hsorted (ho hf) (ho hf')).imp fun e e' ⟨he, ho, ho'⟩ => ?_
  have he n := Prod.ext_iff.mp (he n)
  exact ⟨(he 0).left, h.value (fun n => (he n).right) ho ho'⟩

theorem Alike.repeatedItems (h : m.Alike S m') (hf : (S m.cls).member? k = some f)
    (hn : f.mapKeyCodec = none) (hr : f.repeated) :
    List.Forall₂ (Value.Alike S) (m.repeatedItems k) (m'.repeatedItems k) := by
  have hf' := h.member hf
  have ho n := h.observation hf n
  simp only [Message.observation, hn, hr, if_true, Observation.repeated.injEq] at ho
  refine (List.forall₂_of_map_eq ho (fun _ => observed_of_mem hf) (fun _ => observed_of_mem hf')).imp ?_
  exact fun v v' hv => h.value hv.left hv.right.left hv.right.right

theorem Alike.written (h : m.Alike S m') (hS : S.DefaultsEqual) (hf : (S m.cls).member? k = some f)
    (hn : f.mapKeyCodec = none) (hr : f.repeated = false) (hw : m.Written k f v) :
    ∃ v', m'.Written k f v' ∧ v.Alike S v' := by
  have hf' := h.member hf
  have ho n := h.observation hf n
  simp only [Message.observation, hn, hr, hw.values, Bool.false_eq_true, if_false] at ho
  by_cases hp : f.hasPresence
  · simp only [hp, hw.present hp, if_true] at ho
    obtain ⟨v', hv', hp'⟩ : ∃ v', m'.values k = some (.singular v') ∧ m'.present k := by
      have ho := ho 0
      split at ho
      case h_1 v' hp' hv' => exact ⟨v', hv', hp'⟩
      case h_2 => cases ho
    simp only [hv', hp', Observation.singular.injEq] at ho
    have hw' : m'.Written k f v' := ⟨hv', fun _ => hp', absurd hp⟩
    exact ⟨v', hw', h.value ho (hw.observed hf) (hw'.observed hf')⟩
  · simp only [hp, Bool.false_eq_true, if_false] at ho
    obtain ⟨v', hv'⟩ : ∃ v', m'.values k = some (.singular v') := by
      have ho := ho 0
      split at ho
      case h_1 v' hv' => exact ⟨v', hv'⟩
      -- The default is never written.
      cases v
      case scalar s =>
        cases ho
        exact absurd (hS hf hp) (hw.default hp)
      case message => cases ho
    simp only [hv', Observation.singular.injEq] at ho
    have hd : equalsDefault f (some (.singular v')) = equalsDefault f (some (.singular v)) := by
      have ho := ho 0
      cases v <;> cases v' <;> cases ho <;> rfl
    have hw' : m'.Written k f v' := ⟨hv', fun hp' => absurd hp' hp, fun _ => hd ▸ hw.default hp⟩
    exact ⟨v', hw', h.value ho (hw.observed hf) (hw'.observed hf')⟩

theorem Written.not_unwritten (hw : m.Written k f v) (hr : f.repeated = false) : ¬m.Unwritten k f := by
  intro ⟨_, hu⟩
  rw [if_neg (by simp [hr])] at hu
  split at hu
  case isTrue hp => rw [hw.present hp] at hu; cases hu
  case isFalse hp =>
    rw [hw.values] at hu
    exact hw.default hp <| hu.resolve_left nofun

section

variable {encode encode' : Message → Except EncodeError Bytes}
  (he : ∀ {c c' x}, c.Alike S c' → encode c = .ok x → encode' c' = .ok x)
include he

theorem writeValue_alike {v' : Value Message} {c : Codec} {x : Bytes} (h : v.Alike S v')
    (hx : writeValue encode c v = .ok x) : writeValue encode' c v' = .ok x := by
  rcases h.cases with ⟨s, rfl, rfl⟩ | ⟨d, d', rfl, rfl, hd⟩
  · cases c <;> exact hx
  · cases c
    case message => exact Except.bind_ok (fun _ => he hd) (fun _ => id) hx
    all_goals cases hx

theorem writeField_alike {v' : Value Message} {x : Bytes} (h : v.Alike S v')
    (hx : writeField encode f v = .ok x) : writeField encode' f v' = .ok x :=
  Except.bind_ok (fun _ => id) (fun _ => Except.bind_ok (fun _ => writeValue_alike he h) fun _ => id) hx

theorem writeEntry_alike {e e' : Scalar × Value Message} {x : Bytes}
    (h : e.1 = e'.1 ∧ e.2.Alike S e'.2) (hx : writeEntry encode f keyCodec e = .ok x) :
    writeEntry encode' f keyCodec e' = .ok x := by
  obtain ⟨key, v⟩ := e
  obtain ⟨_, v'⟩ := e'
  obtain ⟨rfl, h⟩ := h
  refine Except.bind_ok (fun _ => id) (fun _ => ?_) hx
  refine Except.bind_ok (fun _ => id) (fun _ => ?_)
  refine Except.bind_ok (fun _ => id) (fun _ => ?_)
  exact Except.bind_ok (fun _ => writeValue_alike he h) (fun _ => id)

theorem writeMember_alike {x : Bytes} (h : m.Alike S m') (hk : S.KeysOrdered) (hd : S.DefaultsEqual)
    (hf : (S m.cls).member? k = some f) (hx : writeMember encode true m k f = .ok x) :
    writeMember encode' true m' k f = .ok x := by
  have hf' := h.member hf
  rcases member_cases h.isLocal hf with ⟨keyCodec, hn⟩ | ⟨hn, hr⟩ | ⟨hr, hu⟩ | ⟨v, hn, hr, hw⟩
  · rw [writeMember_map hn] at hx ⊢
    refine Except.bind_ok (fun xs hxs => Except.mapM_eq_ok_iff.mpr ?_) (fun _ => id) hx
    refine Except.forall₂_of_mapM (fun e e' y hee hy => ?_) (h.entries hk hf hn) hxs
    exact writeEntry_alike he hee hy
  · have hitems := h.repeatedItems hf hn hr
    have hmap {β : Type} {g g' : Value Message → Except EncodeError β} {xs}
        (hg : ∀ {v v' x}, v.Alike S v' → g v = .ok x → g' v' = .ok x) (hxs : (m.repeatedItems k).mapM g = .ok xs) :
        (m'.repeatedItems k).mapM g' = .ok xs :=
      Except.mapM_eq_ok_iff.mpr <| Except.forall₂_of_mapM (fun _ _ _ => hg) hitems hxs
    rw [writeMember_repeated hn hr] at hx ⊢
    split at hx
    case isTrue hnil => rwa [if_pos (List.forall₂_nil_left_iff.mp (hnil ▸ hitems))]
    case isFalse hnil =>
      rw [if_neg fun hnil' => hnil <| List.forall₂_nil_right_iff.mp (hnil' ▸ hitems)]
      split at hx
      case isTrue hp =>
        rw [if_pos hp]
        refine Except.bind_ok (fun _ => id) (fun _ => ?_) hx
        refine Except.bind_ok (fun _ => ?_) fun _ => id
        exact Except.bind_ok (fun _ => hmap (writeValue_alike he)) fun _ => id
      case isFalse hp =>
        rw [if_neg hp]
        exact Except.bind_ok (fun _ => hmap (writeField_alike he)) (fun _ => id) hx
  · rw [writeMember_unwritten hr hu] at hx
    rcases member_cases h.symm.isLocal hf' with ⟨keyCodec, hn⟩ | ⟨_, hr'⟩ | ⟨_, hu'⟩ | ⟨v, hn, _, hw⟩
    · cases hn.symm.trans hu.left
    · cases hr.symm.trans hr'
    · rwa [writeMember_unwritten hr hu']
    · have ⟨v', hw', _⟩ := h.symm.written hd hf' hn hr hw
      exact absurd hu (hw'.not_unwritten hr)
  · have ⟨v', hw', hv⟩ := h.written hd hf hn hr hw
    rw [writeMember_written hn hr hw] at hx
    rw [writeMember_written hn hr hw']
    exact writeField_alike he hv hx

end

section

variable {find : Message → Except EncodeError (List Text)}

theorem itemErrors_eq_nil_iff {items : List (Text × Value Message)} :
    itemErrors find items = .ok [] ↔ ∀ p c, (p, .message c) ∈ items → find c = .ok [] := by
  have hiff : itemErrors find items = .ok [] ↔ _ := Except.bind_eq_ok_iff
  simp only [pure, Except.pure, Except.ok.injEq, Except.mapM_flatten_eq_nil_iff] at hiff
  refine hiff.trans ⟨fun h p c hc => ?_, fun h (p, v) hv => ?_⟩
  · obtain ⟨errors, hfind, he⟩ := Except.bind_eq_ok_iff.mp <| h _ hc
    rwa [List.map_eq_nil_iff.mp (Except.ok.inj he)] at hfind
  · cases v
    case scalar => rfl
    case message c =>
      refine Except.bind_eq_ok_iff.mpr ⟨[], h p c hv, rfl⟩

theorem message_of_acceptedBy {c : Message} (h : (Value.message c).acceptedBy f.codec) : f.message := by
  unfold Field.message
  cases hc : f.codec <;> rw [hc] at h <;> first | cases h | rfl

theorem memberErrors_eq_nil_iff {name : Text} (hm : m.Local S) (hf : (S m.cls).member? k = some f) :
    memberErrors find m k f name = .ok [] ↔ ∀ s c, m.values k = some s → s.Contains (.message c) →
      ((∃ w, s = .singular w) → f.hasPresence → m.present k) → find c = .ok [] := by
  unfold memberErrors
  rcases hv : m.values k with _ | (v | vs | d) <;> dsimp only
  case none => exact ⟨by rintro _ _ _ ⟨⟩, fun _ => rfl⟩
  case some.singular =>
    obtain ⟨hn, _, ha⟩ := hm.fits hf hv
    have hp (h : f.message) : f.hasPresence := by simp [Field.hasPresence, h, Field.map, hn]
    constructor
    · rintro h _ c ⟨⟩ rfl hpres
      have hmsg := message_of_acceptedBy ha
      rw [if_pos (by simp [hmsg, hpres ⟨_, rfl⟩ (hp hmsg)])] at h
      exact itemErrors_eq_nil_iff.mp h name c List.mem_cons_self
    · intro h
      split
      case isFalse => rfl
      case isTrue hc =>
        refine itemErrors_eq_nil_iff.mpr fun p c hpc => ?_
        cases List.mem_singleton.mp hpc
        exact h _ c rfl rfl fun _ _ => (Bool.and_eq_true_iff.mp hc).right
  case some.repeated =>
    obtain ⟨_, hr, ha⟩ := hm.fits hf hv
    constructor
    · rintro h _ c ⟨⟩ hc _
      rw [if_pos (by simp [hr, message_of_acceptedBy (ha _ hc)]), itemErrors_eq_nil_iff] at h
      obtain ⟨i, hi⟩ := List.mem_iff_getElem?.mp hc
      exact h _ c <| List.mem_map.mpr ⟨(.message c, i), List.mem_zipIdx_iff_getElem?.mpr hi, rfl⟩
    · intro h
      split
      case isFalse => rfl
      refine itemErrors_eq_nil_iff.mpr fun p c hpc => ?_
      obtain ⟨⟨v, i⟩, hi, he⟩ := List.mem_map.mp hpc
      cases he
      exact h _ c rfl (List.mem_of_getElem? <| List.mem_zipIdx_iff_getElem?.mp hi)
        (by rintro ⟨_, ⟨⟩⟩)
  case some.map =>
    obtain ⟨keyCodec, hn, ha⟩ := hm.fits hf hv
    constructor
    · rintro h _ c ⟨⟩ ⟨key, hkey⟩ _
      rw [if_pos (by simp [Field.map, hn, message_of_acceptedBy (ha _ _ hkey).right]),
        itemErrors_eq_nil_iff] at h
      exact h _ c <| List.mem_map.mpr ⟨(key, .message c), FinMap.mem_entries_iff.mpr hkey, rfl⟩
    · intro h
      split
      case isFalse => rfl
      refine itemErrors_eq_nil_iff.mpr fun p c hpc => ?_
      obtain ⟨⟨key, v⟩, hv, he⟩ := List.mem_map.mp hpc
      cases he
      exact h _ c rfl ⟨key, FinMap.mem_entries_iff.mp hv⟩ (by rintro ⟨_, ⟨⟩⟩)

end

theorem findInitializationErrors_eq_nil_iff {n : Nat} (hm : m.Local S) :
    findInitializationErrors S (n + 1) m = .ok [] ↔
      (∀ f ∈ (S m.cls).fields, f.required → m.present f.key) ∧
      ∀ c, m.Observed S (.message c) → findInitializationErrors S n c = .ok [] := by
  let find := findInitializationErrors S n
  have hiff : findInitializationErrors S (n + 1) m = .ok [] ↔
      (∀ f ∈ (S m.cls).fields,
        ((if f.required && !m.present f.key then [f.protoName] else []) ++ ·) <$>
          memberErrors find m f.key f f.protoName = .ok []) ∧
      ∀ e ∈ sortedExtensions (S m.cls), memberErrors find m e.key e.field e.name = .ok [] := by
    rw [← Except.mapM_flatten_eq_nil_iff, ← Except.mapM_flatten_eq_nil_iff]
    constructor
    · intro h
      obtain ⟨xs, hxs, h⟩ := Except.bind_eq_ok_iff.mp h
      obtain ⟨ys, hys, h⟩ := Except.bind_eq_ok_iff.mp h
      have ⟨hx, hy⟩ := List.append_eq_nil_iff.mp (Except.ok.inj h)
      exact ⟨⟨xs, hxs, hx⟩, ys, hys, hy⟩
    · rintro ⟨⟨xs, hxs, hx⟩, ys, hys, hy⟩
      refine Except.bind_eq_ok_iff.mpr ⟨xs, hxs, Except.bind_eq_ok_iff.mpr ⟨ys, hys, ?_⟩⟩
      rw [hx, hy]
      rfl
  have hfield f (hf : f ∈ (S m.cls).fields) :
      ((if f.required && !m.present f.key then [f.protoName] else []) ++ ·) <$>
        memberErrors find m f.key f f.protoName = .ok [] ↔
      (f.required → m.present f.key) ∧ memberErrors find m f.key f f.protoName = .ok [] := by
    cases memberErrors find m f.key f f.protoName <;> simp [Functor.map, Except.map]
  rw [hiff]
  constructor
  · intro ⟨hfields, hexts⟩
    refine ⟨fun f hf => ((hfield f hf).mp (hfields f hf)).left, ?_⟩
    intro c ⟨k, f, s, hf, hs, hc, hp⟩
    rcases MessageClass.mem_of_member? hf with ⟨g, hg, rfl⟩ | ⟨e, he, rfl⟩
    · cases (MessageClass.member?_of_field hg).symm.trans hf
      exact (memberErrors_eq_nil_iff hm hf).mp ((hfield f hg).mp (hfields f hg)).right s c hs hc hp
    · cases (MessageClass.member?_of_extension he).symm.trans hf
      exact (memberErrors_eq_nil_iff hm hf).mp (hexts e <| (List.mem_insertionSort _).mpr he) s c hs hc hp
  · intro ⟨hreq, hnested⟩
    refine ⟨fun f hf => (hfield f hf).mpr ⟨hreq f hf, ?_⟩, fun e he => ?_⟩
    · have hf := MessageClass.member?_of_field hf
      exact (memberErrors_eq_nil_iff hm hf).mpr fun s c hs hc hp => hnested c ⟨_, f, s, hf, hs, hc, hp⟩
    · have hf := MessageClass.member?_of_extension <| (List.mem_insertionSort _).mp he
      exact (memberErrors_eq_nil_iff hm hf).mpr fun s c hs hc hp => hnested c ⟨_, _, s, hf, hs, hc, hp⟩

theorem Alike.observed {c : Message} (h : m.Alike S m') (hd : S.DefaultsEqual) (hc : m.Observed S (.message c)) :
    ∃ c', m'.Observed S (.message c') ∧ c.Alike S c' := by
  obtain ⟨k, f, s, hf, hs, hc, hp⟩ := hc
  have hf' := h.member hf
  obtain ⟨v', ho, hv⟩ : ∃ v', m'.Observed S v' ∧ (Value.message c).Alike S v' := by
    rcases s with v | vs | d
    case singular =>
      obtain ⟨hn, hr, ha⟩ := h.isLocal.fits hf hs
      subst hc
      have hw : m.Written k f (.message c) := ⟨hs, hp ⟨_, rfl⟩, fun _ => by simp [equalsDefault]⟩
      obtain ⟨v', hw', ha⟩ := h.written hd hf hn (by simpa using hr) hw
      exact ⟨v', hw'.observed hf', ha⟩
    case repeated =>
      obtain ⟨hn, hr, _⟩ := h.isLocal.fits hf hs
      have hc : .message c ∈ m.repeatedItems k := by simpa [Message.repeatedItems, hs, Slot.Contains] using hc
      obtain ⟨v', hv', ha⟩ := (h.repeatedItems hf hn hr).exists_right hc
      exact ⟨v', observed_of_mem hf' hv', ha⟩
    case map =>
      obtain ⟨keyCodec, hn, _⟩ := h.isLocal.fits hf hs
      obtain ⟨key, hkey⟩ := hc
      have hkey : (m.mapItems k).get? key = some (.message c) := by simpa [mapItems, hs] using hkey
      have hget n := h.get? hf hn n key
      simp only [hkey, Option.map_some] at hget
      obtain ⟨v', hv', _⟩ := Option.map_eq_some_iff.mp (hget 0).symm
      simp only [hv', Option.map_some, Option.some.injEq] at hget
      exact ⟨v', observed_of_get? hf' hv', h.value hget (observed_of_get? hf hkey) (observed_of_get? hf' hv')⟩
  rcases hv.cases with ⟨_, ⟨⟩, _⟩ | ⟨_, c', ⟨⟩, rfl, ha⟩
  exact ⟨c', ho, ha⟩

theorem findInitializationErrors_alike {n : Nat} (hd : S.DefaultsEqual) (h : m.Alike S m')
    (hm : findInitializationErrors S n m = .ok []) : findInitializationErrors S n m' = .ok [] := by
  induction n generalizing m m'
  case zero => cases hm
  case succ n ih =>
    have ⟨hrequired, hnested⟩ := (findInitializationErrors_eq_nil_iff h.isLocal).mp hm
    refine (findInitializationErrors_eq_nil_iff h.symm.isLocal).mpr ⟨fun f hf hr => ?_, fun c' hc' => ?_⟩
    · have hf : f ∈ (S m.cls).fields := h.cls ▸ hf
      have ⟨g, v, hg, hp, hv⟩ := h.isLocal.stored (hrequired f hf hr)
      cases (MessageClass.member?_of_field hf).symm.trans hg
      have ⟨hn, hrep, _⟩ := h.isLocal.fits hg hv
      have hw : m.Written f.key f v := ⟨hv, fun _ => hrequired f hf hr, absurd hp⟩
      have ⟨v', hw', _⟩ := h.written hd hg hn (by simpa using hrep) hw
      exact hw'.present hp
    · have ⟨c, hc, ha⟩ := h.symm.observed hd hc'
      exact ih ha.symm (hnested c hc)

theorem serialize_alike {n : Nat} {x : Bytes} (hk : S.KeysOrdered) (hd : S.DefaultsEqual) (h : m.Alike S m')
    (hx : serialize S true n m = .ok x) : serialize S true n m' = .ok x := by
  induction n generalizing m m' x
  case zero => cases hx
  case succ n ih =>
    obtain ⟨hm, xs, ys, hxs, hys, rfl⟩ := serialize_eq_ok_iff.mp hx
    have hunknown : m.unknownFields = m'.unknownFields := congrArg Node.unknownFields (h.content 1)
    have hmap {α : Type} {as : List α} {key : α → Key} {field : α → Field} {xs}
        (hf : ∀ a ∈ as, (S m.cls).member? (key a) = some (field a))
        (hxs : as.mapM (fun a => writeMember (serialize S true n) true m (key a) (field a)) = .ok xs) :
        as.mapM (fun a => writeMember (serialize S true n) true m' (key a) (field a)) = .ok xs :=
      Except.mapM_ok_of_mem (fun a ha x => writeMember_alike ih h hk hd (hf a ha)) hxs
    refine serialize_eq_ok_iff.mpr ⟨?_, xs, ys, ?_, ?_, by rw [hunknown]⟩ <;> rw [← h.cls]
    · exact findInitializationErrors_alike hd h hm
    · exact hmap (fun f hf => MessageClass.member?_of_field <| (List.mem_insertionSort _).mp hf) hxs
    · exact hmap (fun e he => MessageClass.member?_of_extension <| (List.mem_insertionSort _).mp he) hys

theorem serializeToString_deterministic {x : Bytes} (hk : S.KeysOrdered) (hd : S.DefaultsEqual)
    (hm : m.Consistent S) (hm' : m'.Consistent S) (h : m.SameContent S m')
    (hx : m.serializeToString S true = .ok x) : m'.serializeToString S true = .ok x := by
  have ha : m.Alike S m' := ⟨h, hm, hm'⟩
  rw [serializeToString, ← ha.cls]
  exact serialize_alike hk hd ha hx

theorem member?_onlyField {g : Field} {limit : Nat} (h : (onlyField g limit).member? k = some f) :
    k = g.key ∧ f = g := by
  rcases k with n | n
  case field =>
    have hf : f = g := List.mem_singleton.mp <| MessageClass.mem_of_field? h
    have hn := MessageClass.number_of_field? h
    rw [hf] at hn
    exact ⟨congrArg Key.field hn.symm, hf⟩
  case extension => cases h

def agesField : Field :=
  { mapField 0 (some .int32) with codec := .int32 }

def ages : Schema := fun _ => onlyField agesField 100

def aged (a b : Int) : Message :=
  ((Message.empty 0).setEntry (.field 1) (.int a) (.scalar (.int 7))).setEntry (.field 1) (.int b) (.scalar (.int 7))

theorem consistent_aged {a b : Int} (ha : Codec.int32.accepts (.int a)) (hb : Codec.int32.accepts (.int b)) :
    (aged a b).Consistent ages := by
  have hset {m : Message} {i : Int} (hm : m.Settled ages (UnknownAt ages) 1) (hi : Codec.int32.accepts (.int i)) :
      (m.setEntry (.field 1) (.int i) (.scalar (.int 7))).Settled ages (UnknownAt ages) 1 :=
    hm.setEntry (f := agesField) rfl rfl hi rfl nofun
  have hs : (aged a b).Settled ages (UnknownAt ages) 1 := hset (hset .empty ha) hb
  exact fun d c hc => (hs.sound.wellFormed.left d c hc).left

theorem sameContent_aged {a b : Int} : (aged a b).SameContent ages (aged b a) := by
  rintro (_ | n)
  · rfl
  · refine Node.ext rfl (funext fun k => ?_) rfl rfl
    change ((ages 0).member? k).elim .absent ((aged a b).observation _ k) =
      ((ages 0).member? k).elim .absent ((aged b a).observation _ k)
    cases hf : (ages 0).member? k
    case none => rfl
    case some f =>
      obtain ⟨rfl, rfl⟩ := member?_onlyField hf
      refine congrArg Observation.map (funext fun key => ?_)
      rw [show agesField.key = .field 1 from rfl]
      simp only [aged, mapItems_setEntry, FinMap.get?_set]
      split <;> split <;> rfl

theorem serializeToString_deterministic_aged : (aged 2 1).serializeToString ages true =
    .ok [0x0A, 0x04, 0x08, 0x01, 0x10, 0x07, 0x0A, 0x04, 0x08, 0x02, 0x10, 0x07] := by
  refine serializeToString_deterministic (m := aged 1 2) (fun c k f hf => ?_) (fun c k f hf hp => ?_)
    (consistent_aged rfl rfl) (consistent_aged rfl rfl) sameContent_aged (by decide +kernel)
  · obtain ⟨_, rfl⟩ := member?_onlyField hf
    exact ⟨nofun, nofun⟩
  · obtain ⟨_, rfl⟩ := member?_onlyField hf
    rfl

def nan : Scalar :=
  .double 0x7FF8000000000000

def ratioField : Field :=
  { mapField 0 none with codec := .double, defaultFactory := some nan }

def ratios : Schema := fun _ => onlyField ratioField 100

def ratio : Message :=
  (Message.empty 0).storeValue ratios (.field 1) ratioField (.scalar nan)

-- The field reads NaN in both messages, but only the one that has been set is written: it differs from the
-- default.
theorem serializeToString_deterministic_ratio :
    (Message.empty 0).Consistent ratios ∧ ratio.Consistent ratios ∧ (Message.empty 0).SameContent ratios ratio ∧
    (Message.empty 0).serializeToString ratios true = .ok [] ∧ ratio.serializeToString ratios true ≠ .ok [] := by
  have he : (Message.empty 0).Settled ratios (UnknownAt ratios) 1 := .empty
  have hr : ratio.Settled ratios (UnknownAt ratios) 1 :=
    (storeValue_stores Local.empty.selects rfl).settled .empty rfl ⟨rfl, Bool.noConfusion, rfl⟩ nofun
  refine ⟨fun d c hc => (he.sound.wellFormed.left d c hc).left,
    fun d c hc => (hr.sound.wellFormed.left d c hc).left, ?_, by decide +kernel, by decide +kernel⟩
  rintro (_ | n)
  · rfl
  · refine Node.ext rfl (funext fun k => ?_) rfl rfl
    change ((ratios 0).member? k).elim .absent ((Message.empty 0).observation _ k) =
      ((ratios 0).member? k).elim .absent (ratio.observation _ k)
    cases hf : (ratios 0).member? k
    case none => rfl
    case some f =>
      obtain ⟨rfl, rfl⟩ := member?_onlyField hf
      rfl

end Message

end Protos
