import PysdkModel.Protos.Theorems.Deterministic

-- Messages that are built by any sequence of operations are written to bytes that replace the content of
-- any other message by theirs.

namespace Protos

namespace Slot

theorem Fits.cleared {f : Field} {s t : Slot Message} (h : s.Fits f) (ht : s.cleared = some t) : t.Fits f := by
  cases s <;> cases ht
  case repeated => exact ⟨h.left, h.right.left, nofun⟩
  case map =>
    obtain ⟨keyCodec, hk, _⟩ := h
    refine ⟨keyCodec, hk, fun key v hv => ?_⟩
    rw [FinMap.get?_empty] at hv
    cases hv

theorem not_contains_cleared {μ : Type} {s t : Slot μ} {v : Value μ} (ht : s.cleared = some t) : ¬t.Contains v := by
  cases s <;> cases ht
  case repeated => exact List.not_mem_nil
  case map =>
    rintro ⟨key, hv⟩
    rw [FinMap.get?_empty] at hv
    cases hv

end Slot

namespace Message

-- What the operations on a new message of a class can lead to, in any order and also if reading bytes
-- fails. Values that are assigned are scalars.
inductive Built (S : Schema) (c : ClassId) : Message → Prop
  | new : Built S c (.empty c)
  | clear {m} : Built S c m → Built S c m.clear
  | clearField {m f} : Built S c m → (S c).member? f.key = some f → Built S c (m.clearState f)
  | set {m k f v} : Built S c m → (S c).member? k = some f → (Slot.singular (.scalar v)).Fits f →
    Built S c (m.storeValue S k f (.scalar v))
  | extend {m k f} {vs : List Scalar} : Built S c m → (S c).member? k = some f →
    (Slot.repeated (vs.map .scalar)).Fits f → Built S c (m.extend k (vs.map .scalar))
  | setEntry {m k f keyCodec key v} : Built S c m → (S c).member? k = some f →
    f.mapKeyCodec = some keyCodec → keyCodec.accepts key → (Value.scalar v).acceptedBy f.codec →
    Built S c (m.setEntry k key (.scalar v))
  | mergeFromString {m payload} : Built S c m → Built S c (m.mergeFromString S payload).1
  | mergeFrom {m other} : Built S c m → Built S c other →
    Built S c (mergeFrom S (S c).nestingLimit m other)

variable {S : Schema} {U : Unknowns} {n : Nat} {c : ClassId} {m t r : Message} {f : Field}

structure Removes (m r : Message) : Prop where
  cls : r.cls = m.cls
  values : ∀ {k s}, r.values k = some s →
    m.values k = some s ∧ r.present k = m.present k ∨ (m.values k).bind Slot.cleared = some s
  present : ∀ {k}, r.present k → m.present k ∧ r.values k = m.values k
  oneofs : ∀ {o i}, r.oneofs o = some i ↔ m.oneofs o = some i ∧ r.present (.field i)
  unknown : r.unknownFields ⊆ m.unknownFields

theorem Removes.settled (hr : m.Removes r) (hm : m.Settled S U (n + 1)) : r.Settled S U (n + 1) := by
  have hl := hm.left.isLocal
  refine ⟨⟨⟨⟨?_, ?_, ?_⟩, ?_⟩, ?_⟩, ?_⟩
  · intro k f s hf hs
    rw [hr.cls] at hf
    rcases hr.values hs with ⟨hs, _⟩ | hs
    · exact hl.fits hf hs
    · obtain ⟨_, ht, hs⟩ := Option.bind_eq_some_iff.mp hs
      exact (hl.fits hf ht).cleared hs
  · intro k hp
    obtain ⟨hp, hv⟩ := hr.present hp
    rw [hr.cls, hv]
    exact hl.stored hp
  · intro o i
    rw [hr.oneofs, hl.oneof, hr.cls]
    constructor
    · rintro ⟨⟨g, hg, ho, _⟩, hp⟩
      exact ⟨g, hg, ho, hp⟩
    · rintro ⟨g, hg, ho, hp⟩
      exact ⟨⟨g, hg, ho, (hr.present hp).left⟩, hp⟩
  · rw [hr.cls]
    exact fun x hx => hm.left.unknown x (hr.unknown hx)
  · intro k f v hf hp hv
    rw [hr.cls] at hf
    rcases hr.values hv with ⟨hv, hk⟩ | hv
    · exact hk ▸ hm.left.noStale k f v hf hp hv
    · obtain ⟨_, _, hv⟩ := Option.bind_eq_some_iff.mp hv
      exact absurd rfl (Slot.not_contains_cleared hv)
  · rintro c ⟨k, f, s, hf, hs, hc, _⟩
    rw [hr.cls] at hf
    rcases hr.values hs with ⟨hs, _⟩ | hs
    · exact hm.of_mem hf hs hc
    · obtain ⟨_, _, hs⟩ := Option.bind_eq_some_iff.mp hs
      exact absurd hc (Slot.not_contains_cleared hs)

theorem removes_clear : m.Removes m.clear where
  cls := rfl
  values := .inr
  present := Bool.noConfusion
  oneofs := ⟨nofun, fun h => nomatch h.right⟩
  unknown := List.nil_subset _

theorem Local.removes_field (hm : m.Local S) (hf : (S m.cls).member? f.key = some f) (hc : r.cls = m.cls)
    (hv : r.values = Function.update m.values f.key ((m.values f.key).bind Slot.cleared))
    (hp : r.present = Function.update m.present f.key false) (hu : r.unknownFields = m.unknownFields)
    (ho : ∀ {o i}, r.oneofs o = some i ↔ m.oneofs o = some i ∧ ¬(f.oneof = some o ∧ i = f.number)) : m.Removes r where
  cls := hc
  unknown := hu ▸ List.Subset.refl _
  values := by
    intro k s hs
    rw [hv, Function.update_apply] at hs
    split at hs
    case isTrue hk => exact .inr (hk ▸ hs)
    case isFalse hk => exact .inl ⟨hs, by rw [hp, Function.update_of_ne hk]⟩
  present := by
    intro k hk
    rw [hp, Function.update_apply] at hk
    split at hk
    case isTrue => cases hk
    case isFalse hne => exact ⟨hk, by rw [hv, Function.update_of_ne hne]⟩
  oneofs := by
    intro o i
    rw [ho, hp]
    refine and_congr_right fun hi => ?_
    obtain ⟨g, hg, hgo, hgp⟩ := hm.oneof.mp hi
    by_cases hn : i = f.number
    · subst hn
      cases (show some g = some f from hg.symm.trans hf)
      simp [hgo, Field.key]
    · simp [hn, Field.key, hgp]

theorem Local.removes_container {s : Slot Message} (hm : m.Local S) (hf : (S m.cls).member? f.key = some f)
    (hc : f.mapKeyCodec.isSome ∨ f.repeated) (hs : ∀ {u : Slot Message}, u.Fits f → u.cleared = some s) :
    m.Removes (m.setValue f.key ((m.values f.key).map fun _ => s)) := by
  have hp : m.present f.key = false := hm.not_present hf hc
  refine hm.removes_field hf rfl ?_ ?_ rfl ?_
  · rw [values_setValue]
    congr 1
    cases hv : m.values f.key
    case none => rfl
    case some u => exact (hs (hm.fits hf hv)).symm
  · rw [present_setValue, ← hp, Function.update_eq_self]
  · intro o i
    refine ⟨fun h => ⟨h, ?_⟩, And.left⟩
    rintro ⟨_, rfl⟩
    obtain ⟨_, _, _, hi⟩ := hm.oneof.mp h
    exact absurd (hp.symm.trans hi) Bool.noConfusion

theorem Local.removes_clearState (hm : m.Local S) (hf : (S m.cls).member? f.key = some f) :
    m.Removes (m.clearState f) := by
  unfold clearState
  split
  case isTrue hmap =>
    refine hm.removes_container hf (.inl hmap) fun {u} hu => ?_
    cases u <;> simp_all [Slot.Fits, Field.map, Slot.cleared]
  case isFalse hmap =>
    split
    case isTrue hrep =>
      refine hm.removes_container hf (.inr hrep) fun {u} hu => ?_
      cases u <;> simp_all [Slot.Fits, Field.map, Slot.cleared]
    case isFalse hrep =>
      have hv : (m.values f.key).bind Slot.cleared = none := by
        cases hv : m.values f.key
        case none => rfl
        case some u =>
          have hu := hm.fits hf hv
          cases u <;> simp_all [Slot.Fits, Field.map, Slot.cleared]
      dsimp only
      split
      case h_1 ho => exact hm.removes_field hf rfl (hv ▸ rfl) rfl rfl (by simp [ho])
      case h_2 o ho =>
        split
        case isTrue hs =>
          refine hm.removes_field hf rfl (hv ▸ rfl) rfl rfl fun {o' i} => ?_
          simp only [oneofs_setPresent, oneofs_setValue] at hs
          by_cases h : o' = o
          · simp [h, ho, hs, eq_comm]
          · simp [h, ho, Ne.symm h]
        case isFalse hs =>
          refine hm.removes_field hf rfl (hv ▸ rfl) rfl rfl fun {o' i} => ⟨fun h => ⟨h, ?_⟩, And.left⟩
          rintro ⟨ho', rfl⟩
          cases ho.symm.trans ho'
          exact hs h

theorem Built.settled (hS : S.Floatless) (hl : (S c).nestingLimit = n + 1) (hm : Built S c m) :
    m.cls = c ∧ m.Settled S (UnknownAt S) (n + 1) := by
  induction hm
  case new => exact ⟨rfl, .empty⟩
  case clear ih => exact ⟨ih.left, removes_clear.settled ih.right⟩
  case clearField hf ih =>
    obtain ⟨rfl, hm⟩ := ih
    have hr := hm.left.isLocal.removes_clearState hf
    exact ⟨hr.cls, hr.settled hm⟩
  case set v _ hf hv ih =>
    obtain ⟨rfl, hm⟩ := ih
    have hs := storeValue_stores (w := .scalar v) hm.left.isLocal.selects hf
    exact ⟨hs.cls, hs.settled hm hf hv nofun⟩
  case extend hf hv ih =>
    obtain ⟨rfl, hm⟩ := ih
    exact ⟨rfl, hm.extend hf hv.left hv.right.left hv.right.right (by simp)⟩
  case setEntry hf hk hkey hv ih =>
    obtain ⟨rfl, hm⟩ := ih
    exact ⟨rfl, hm.setEntry hf hk hkey hv nofun⟩
  case mergeFromString ih =>
    obtain ⟨rfl, hm⟩ := ih
    rw [Message.mergeFromString, hl]
    exact mergeString_settled hS hm rfl
  case mergeFrom ih ih' =>
    obtain ⟨rfl, hm⟩ := ih
    obtain ⟨hc, hm'⟩ := ih'
    rw [hl]
    obtain ⟨hr, he⟩ := (merges_mergeFrom hS).left _ _ hm hm'.sound hc
    exact ⟨congrArg Node.cls (he 1), hr⟩

-- What is present is stored, a oneof has selected its present member, and no other member of it is stored.
theorem Built.represented (hS : S.Floatless) (hl : 0 < (S c).nestingLimit) (hm : Built S c m) :
    m.cls = c ∧ m.Local S ∧ m.NoStale S := by
  obtain ⟨n, hl⟩ := Nat.exists_eq_add_one.mpr hl
  obtain ⟨hc, hm⟩ := hm.settled hS hl
  exact ⟨hc, hm.left.isLocal, hm.left.noStale⟩

theorem content_clear {j : Nat} : m.clear.content S j = (empty m.cls).content S j := by
  cases j
  case zero => rfl
  case succ j =>
    refine Node.ext rfl (funext fun k => congrArg (Option.elim _ _) (funext fun f => ?_)) rfl rfl
    have hv : m.clear.values k = (m.values k).bind Slot.cleared := rfl
    have he : (empty m.cls).values k = none := rfl
    have hp : m.clear.present k = false := rfl
    have hp' : (empty m.cls).present k = false := rfl
    simp only [observation, mapItems, repeatedItems, hv, he, hp, hp']
    cases hs : m.values k
    case none => rfl
    case some s => cases s <;> rfl

theorem Settled.replaces (hS : S.Floatless) (hk : S.KeysOrdered) (hm : m.Settled S (UnknownAt S) (n + 1))
    (hr : r.Settled S (UnknownAt S) (n + 1)) (hc : t.clear.cls = m.cls)
    (he : ∀ j, r.content S j = Content.merge S j (t.clear.content S j) (m.content S j)) :
    r.SameContent S m ∧ ∀ y, r.serializeToString S true = .ok y ↔ m.serializeToString S true = .ok y := by
  have h : r.SameContent S m := by
    intro j
    rw [he, content_clear, show t.cls = m.cls from hc, content_merge_empty hS hm.left.isLocal]
  have hd : S.DefaultsEqual := fun _ _ _ hf _ => (Scalar.eq_iff (hS hf).right.right).mpr rfl
  have ha : r.Alike S m :=
    ⟨h, fun d c hc => (hr.sound.wellFormed.left d c hc).left, fun d c hc => (hm.sound.wellFormed.left d c hc).left⟩
  refine ⟨h, fun y => ?_⟩
  rw [serializeToString, serializeToString, ha.cls]
  exact ⟨serialize_alike hk hd ha, serialize_alike hk hd ha.symm⟩

section

variable (hS : S.Floatless) (hk : S.KeysOrdered) (hl : 0 < (S c).nestingLimit) (hm : Built S c m)
  (ht : Built S c t)
include hS hk hl hm ht

-- Whatever a message held before, reading the bytes of another one replaces it by the content of that one,
-- and the deterministic bytes are the same again.
theorem Built.parseFromString_serializeToString (hs : S.Separate) {deterministic : Bool} {x : Bytes}
    (hx : m.serializeToString S deterministic = .ok x) :
    ∃ r, t.parseFromString S x = (r, none) ∧ r.SameContent S m ∧
      ∀ y, r.serializeToString S true = .ok y ↔ m.serializeToString S true = .ok y := by
  obtain ⟨n, hl⟩ := Nat.exists_eq_add_one.mpr hl
  obtain ⟨rfl, hmset⟩ := hm.settled hS hl
  obtain ⟨hc, htset⟩ := ht.clear.settled hS hl
  rw [serializeToString, hl] at hx
  obtain ⟨r, hr, hset, he⟩ := consumes_of_serialize hS hs (roundTrips hS hs) htset hmset.sound hc.symm hx
  refine ⟨r, ?_, hmset.replaces hS hk hset hc he⟩
  rw [parseFromString, Message.mergeFromString, hc, hl]
  exact mergeString_of_consumes hr

theorem Built.copyFrom_sameContent :
    (copyFrom S (S c).nestingLimit t m).SameContent S m ∧
      ∀ y, (copyFrom S (S c).nestingLimit t m).serializeToString S true = .ok y ↔
        m.serializeToString S true = .ok y := by
  obtain ⟨n, hl⟩ := Nat.exists_eq_add_one.mpr hl
  obtain ⟨rfl, hmset⟩ := hm.settled hS hl
  obtain ⟨hc, htset⟩ := ht.clear.settled hS hl
  rw [copyFrom, hl]
  obtain ⟨hset, he⟩ := (merges_mergeFrom hS).left _ _ htset hmset.sound hc.symm
  exact hmset.replaces hS hk hset hc he

end

theorem floatless_ages : ages.Floatless := by
  intro c k f hf
  obtain ⟨_, rfl⟩ := member?_onlyField hf
  exact ⟨nofun, nofun, rfl⟩

theorem keysOrdered_ages : ages.KeysOrdered := by
  intro c k f hf
  obtain ⟨_, rfl⟩ := member?_onlyField hf
  exact ⟨nofun, nofun⟩

theorem built_aged : Built ages 0 (aged 2 1) :=
  have h : Built ages 0 ((Message.empty 0).setEntry (.field 1) (.int 2) (.scalar (.int 7))) :=
    .setEntry (f := agesField) .new rfl rfl rfl rfl
  .setEntry (f := agesField) h rfl rfl rfl rfl

-- The bytes end within a record: the entry before it is kept, and replaced afterwards.
def interrupted : Message :=
  ((Message.empty 0).mergeFromString ages [0x0A, 0x04, 0x08, 0x05, 0x10, 0x07, 0x0A]).1

theorem represented_interrupted : interrupted.Local ages :=
  (Built.represented (c := 0) floatless_ages (by decide) (.mergeFromString .new)).right.left

theorem parseFromString_serializeToString_aged :
    ∃ r, interrupted.parseFromString ages
        [0x0A, 0x04, 0x08, 0x02, 0x10, 0x07, 0x0A, 0x04, 0x08, 0x01, 0x10, 0x07] = (r, none) ∧
      r.SameContent ages (aged 2 1) := by
  have hx : (aged 2 1).serializeToString ages false =
    .ok [0x0A, 0x04, 0x08, 0x02, 0x10, 0x07, 0x0A, 0x04, 0x08, 0x01, 0x10, 0x07] := by decide +kernel
  obtain ⟨r, hr, hc, _⟩ := Built.parseFromString_serializeToString floatless_ages keysOrdered_ages (by decide)
    built_aged (t := interrupted) (.mergeFromString .new) (fun _ _ he => by cases he) hx
  exact ⟨r, hr, hc⟩

theorem copyFrom_sameContent_aged : (copyFrom ages 100 interrupted (aged 2 1)).SameContent ages (aged 2 1) :=
  (Built.copyFrom_sameContent floatless_ages keysOrdered_ages (by decide) built_aged (t := interrupted)
    (.mergeFromString .new)).left

end Message

end Protos
