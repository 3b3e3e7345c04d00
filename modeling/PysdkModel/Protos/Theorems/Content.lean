import PysdkModel.Protos.Content

namespace Protos

namespace MessageClass

variable {c : MessageClass} {n : Nat} {k : Key} {f : Field}

theorem number_of_field? (h : c.field? n = some f) : f.number = n := by
  simpa using List.find?_some h

theorem mem_of_field? (h : c.field? n = some f) : f ∈ c.fields :=
  List.mem_of_find?_eq_some h

theorem find?_of_mem {α : Type} {g : α → Nat} {as : List α} {a : α} (hn : (as.map g).Nodup) (h : a ∈ as) :
    as.find? (g · = g a) = some a := by
  induction as
  case nil => cases h
  case cons b as ih =>
    rw [List.map_cons, List.nodup_cons] at hn
    rw [List.find?_cons]
    rcases List.mem_cons.mp h with rfl | h
    · simp
    · have hb : g b ≠ g a := fun he => hn.left <| he ▸ List.mem_map_of_mem h
      simp only [hb, decide_false]
      exact ih hn.right h

theorem field?_of_mem (h : f ∈ c.fields) : c.field? f.number = some f :=
  find?_of_mem c.nodup h

theorem extension?_of_mem {e : Extension} (h : e ∈ c.extensions) : c.extension? e.number = some e :=
  find?_of_mem c.nodup_extensions h

theorem member?_of_field (h : f ∈ c.fields) : c.member? f.key = some f :=
  field?_of_mem h

theorem member?_of_extension {e : Extension} (h : e ∈ c.extensions) : c.member? e.key = some e.field := by
  simp [member?, Extension.key, extension?_of_mem h]

theorem nodup_keys : (c.fields.map Field.key).Nodup := by
  have h : c.fields.map Field.key = (c.fields.map Field.number).map Key.field := by simp [Field.key]
  rw [h]
  exact c.nodup.map fun _ _ h => Key.field.inj h

theorem nodup_extension_keys : (c.extensions.map Extension.key).Nodup := by
  have h : c.extensions.map Extension.key = (c.extensions.map Extension.number).map Key.extension := by
    simp [Extension.key]
  rw [h]
  exact c.nodup_extensions.map fun _ _ h => Key.extension.inj h

theorem mem_of_member? (h : c.member? k = some f) : (∃ f ∈ c.fields, f.key = k) ∨ ∃ e ∈ c.extensions, e.key = k := by
  cases k
  case field n => exact .inl ⟨f, mem_of_field? h, by rw [Field.key, number_of_field? h]⟩
  case extension n =>
    have ⟨e, he, _⟩ := Option.map_eq_some_iff.mp h
    have hn : e.number = n := by simpa using List.find?_some he
    exact .inr ⟨e, List.mem_of_find?_eq_some he, by rw [Extension.key, hn]⟩

theorem key_of_oneof {o : Text} (h : c.member? k = some f) (ho : f.oneof = some o) : k = f.key := by
  cases k
  case field n => rw [Field.key, number_of_field? h]
  case extension n =>
    have ⟨e, _, he⟩ := Option.map_eq_some_iff.mp h
    simp [← he, Extension.field] at ho

end MessageClass

theorem Field.hasPresence_of_oneof {f : Field} {o : Text} (h : f.oneof = some o) : f.hasPresence := by
  simp [Field.hasPresence, h]

namespace Slot

variable {μ : Type}

def Contains : Slot μ → Value μ → Prop
  | .singular v, w => w = v
  | .repeated vs, w => w ∈ vs
  | .map d, w => ∃ key, d.get? key = some w

def Fits (f : Field) : Slot Message → Prop
  | .singular v => f.mapKeyCodec = none ∧ ¬f.repeated ∧ v.acceptedBy f.codec
  | .repeated vs => f.mapKeyCodec = none ∧ f.repeated ∧ ∀ v ∈ vs, v.acceptedBy f.codec
  | .map d => ∃ keyCodec, f.mapKeyCodec = some keyCodec ∧
    ∀ key v, d.get? key = some v → keyCodec.accepts key ∧ v.acceptedBy f.codec

end Slot

namespace Message

-- The invariant of the dictionaries of a single message: what is stored fits its field, what is present
-- is stored, and a oneof refers to its present member.
structure Local (S : Schema) (m : Message) : Prop where
  fits : ∀ {k f s}, (S m.cls).member? k = some f → m.values k = some s → s.Fits f
  stored : ∀ {k}, m.present k → ∃ f v,
    (S m.cls).member? k = some f ∧ f.hasPresence ∧ m.values k = some (.singular v)
  oneof : ∀ {o n}, m.oneofs o = some n ↔ ∃ f,
    (S m.cls).field? n = some f ∧ f.oneof = some o ∧ m.present (.field n)

-- No child has been created by reading a field that is not set.
def NoStale (S : Schema) (m : Message) : Prop :=
  ∀ k f v, (S m.cls).member? k = some f → f.hasPresence → m.values k = some (.singular v) → m.present k

def Observed (S : Schema) (m : Message) (v : Value Message) : Prop :=
  ∃ k f s, (S m.cls).member? k = some f ∧ m.values k = some s ∧ s.Contains v ∧
    ((∃ w, s = .singular w) → f.hasPresence → m.present k)

-- The messages of at most `n` levels that satisfy `P`, and so do the messages in them. `P` also depends
-- on the number of levels that are left. New messages do not count: a map entry without a value gets one at
-- any level.
def Deep (S : Schema) (P : Nat → Message → Prop) : Nat → Message → Prop
  | 0, m => m = .empty m.cls
  | n + 1, m => P n m ∧ ∀ c, m.Observed S (.message c) → Deep S P n c

abbrev Unknowns := Nat → ClassId → Bytes → Prop

structure IsSound (S : Schema) (U : Unknowns) (n : Nat) (m : Message) : Prop where
  isLocal : m.Local S
  unknown : ∀ x ∈ m.unknownFields, U n m.cls x

structure IsSettled (S : Schema) (U : Unknowns) (n : Nat) (m : Message) : Prop extends m.IsSound S U n where
  noStale : m.NoStale S

def Sound (S : Schema) (U : Unknowns) : Nat → Message → Prop :=
  Deep S (IsSound S U)

def Settled (S : Schema) (U : Unknowns) : Nat → Message → Prop :=
  Deep S (IsSettled S U)

variable {S : Schema} {U : Unknowns} {m : Message} {k : Key} {f : Field}

variable {P : Nat → Message → Prop} {n : Nat}

theorem Deep.mono {Q : Nat → Message → Prop} (h : ∀ {n m}, P n m → Q n m) (hm : Deep S P n m) : Deep S Q n m := by
  induction n generalizing m
  case zero => exact hm
  case succ n ih => exact ⟨h hm.left, fun c hc => ih <| hm.right c hc⟩

theorem Settled.sound (hm : m.Settled S U n) : m.Sound S U n :=
  hm.mono IsSettled.toIsSound

attribute [local simp] Message.empty

theorem Local.empty {c : ClassId} : (Message.empty c).Local S where
  fits := by intro k f s _ h; simp [values, state] at h
  stored := by intro k h; simp [present, state] at h
  oneof := by intro o n; simp [oneofs, present, state]

theorem IsSettled.empty {c : ClassId} : (Message.empty c).IsSettled S U n := by
  refine ⟨⟨.empty, nofun⟩, ?_⟩
  intro k f v _ _ h
  simp [values, state] at h

theorem Deep.empty {c : ClassId} (h : ∀ {n}, P n (.empty c)) : Deep S P n (.empty c) := by
  cases n
  case zero => rfl
  case succ n =>
    refine ⟨h, ?_⟩
    rintro d ⟨k, f, s, _, hs, _⟩
    simp [values, state] at hs

theorem Settled.empty {c : ClassId} : (Message.empty c).Settled S U n :=
  Deep.empty IsSettled.empty

theorem Deep.le {Q : Nat → Message → Prop} (h : ∀ {n n' m}, P n m → Q n' m)
    (he : ∀ {n c}, Q n (.empty c)) {n' : Nat} (hn : n ≤ n') (hm : Deep S P n m) : Deep S Q n' m := by
  induction n generalizing m n'
  case zero =>
    rw [hm]
    exact .empty he
  case succ n ih =>
    cases n'
    case zero => cases hn
    case succ n' => exact ⟨h hm.left, fun c hc => ih (Nat.le_of_succ_le_succ hn) <| hm.right c hc⟩

theorem Local.not_present (hm : m.Local S) (hf : (S m.cls).member? k = some f)
    (hc : f.mapKeyCodec.isSome ∨ f.repeated) : m.present k = false := by
  by_contra hp
  have ⟨f', v, hf', _, hv⟩ := hm.stored (k := k) (by simpa using hp)
  cases hf.symm.trans hf'
  have ⟨hn, hr, _⟩ := hm.fits hf hv
  simp [hn, hr] at hc

section

variable {μ : Type} {observe : Message → μ}

theorem observation_congr {m' : Message} (hv : m.values k = m'.values k) (hp : m.present k = m'.present k) :
    m.observation observe k f = m'.observation observe k f := by
  simp only [observation, mapItems, repeatedItems, hv, hp]

theorem node_eq_update (m' : Message) (hf : (S m.cls).member? k = some f) (hc : m'.cls = m.cls)
    (ho : m'.oneofs = m.oneofs) (hu : m'.unknownFields = m.unknownFields)
    (hv : ∀ k', k' ≠ k → m'.values k' = m.values k') (hp : ∀ k', k' ≠ k → m'.present k' = m.present k') :
    m'.node observe S = (m.node observe S).update k (m'.observation observe k f) := by
  ext1
  case members =>
    funext k'
    simp only [node, Node.update, hc]
    by_cases hk : k' = k
    case pos => simp [hk, hf]
    rw [Function.update_of_ne hk]
    congr! 1
    funext f'
    exact observation_congr (hv k' hk) (hp k' hk)
  all_goals assumption

end

section

variable {n : Nat} {s : Slot Message} (hm : m.Settled S U (n + 1)) (hf : (S m.cls).member? k = some f)
include hm hf

theorem Settled.setContainer (hc : f.mapKeyCodec.isSome ∨ f.repeated) (hs : s.Fits f)
    (hd : ∀ d, s.Contains (.message d) → d.Settled S U n) : (m.setValue k (some s)).Settled S U (n + 1) := by
  have hl := hm.left.isLocal
  have hp := hl.not_present hf hc
  have hw w : s ≠ .singular w := by
    rintro rfl
    have ⟨hn, hr, _⟩ := hs
    simp [hn, hr] at hc
  refine ⟨⟨⟨⟨?_, ?_, ?_⟩, hm.left.unknown⟩, ?_⟩, ?_⟩
  · intro k' f' s' hf' hs'
    by_cases hk : k' = k
    · subst hk
      cases hf.symm.trans hf'
      simp only [values_setValue, Function.update_self, Option.some.injEq] at hs'
      exact hs' ▸ hs
    · rw [values_setValue, Function.update_of_ne hk] at hs'
      exact hl.fits hf' hs'
  · intro k' hp'
    have hk : k' ≠ k := by rintro rfl; simp [hp] at hp'
    rw [values_setValue, Function.update_of_ne hk]
    exact hl.stored hp'
  · exact hl.oneof
  · intro k' f' v hf' hpres hv
    by_cases hk : k' = k
    · subst hk
      simp only [values_setValue, Function.update_self, Option.some.injEq] at hv
      exact absurd hv (hw v)
    · rw [values_setValue, Function.update_of_ne hk] at hv
      exact hm.left.noStale k' f' v hf' hpres hv
  · rintro d ⟨k', f', s', hf', hs', hd', hpres⟩
    by_cases hk : k' = k
    · subst hk
      simp only [values_setValue, Function.update_self, Option.some.injEq] at hs'
      exact hd d <| hs' ▸ hd'
    · rw [values_setValue, Function.update_of_ne hk] at hs'
      exact hm.right d ⟨k', f', s', hf', hs', hd', hpres⟩

end

section

variable {n : Nat} {μ : Type} {observe : Message → μ}

theorem mem_repeatedItems {v : Value Message} (h : v ∈ m.repeatedItems k) :
    ∃ vs, m.values k = some (.repeated vs) ∧ v ∈ vs := by
  unfold repeatedItems at h
  split at h
  case h_1 vs hv => exact ⟨vs, hv, h⟩
  case h_2 => cases h

theorem get?_mapItems {key : Scalar} {v : Value Message} (h : (m.mapItems k).get? key = some v) :
    ∃ d, m.values k = some (.map d) ∧ d.get? key = some v := by
  unfold mapItems at h
  split at h
  case h_1 d hd => exact ⟨d, hd, h⟩
  case h_2 => rw [FinMap.get?_empty] at h; cases h

theorem Settled.of_mem (hm : m.Settled S U (n + 1)) (hf : (S m.cls).member? k = some f)
    {s : Slot Message} (hs : m.values k = some s) {d : Message} (hd : s.Contains (.message d)) : d.Settled S U n := by
  refine hm.right d ⟨k, f, s, hf, hs, hd, ?_⟩
  rintro ⟨w, rfl⟩ hp
  exact hm.left.noStale k f w hf hp hs

theorem Settled.extend (hm : m.Settled S U (n + 1)) (hf : (S m.cls).member? k = some f)
    (hn : f.mapKeyCodec = none) (hr : f.repeated) {vs : List (Value Message)}
    (hv : ∀ v ∈ vs, v.acceptedBy f.codec) (hd : ∀ d, .message d ∈ vs → d.Settled S U n) :
    (m.extend k vs).Settled S U (n + 1) := by
  refine hm.setContainer hf (.inr hr) ⟨hn, hr, fun v h => ?_⟩ fun d h => ?_
  · rcases List.mem_append.mp h with h | h
    · have ⟨ws, hws, h⟩ := mem_repeatedItems h
      exact (hm.left.isLocal.fits hf hws).right.right v h
    · exact hv v h
  · rcases List.mem_append.mp h with h | h
    · have ⟨ws, hws, h⟩ := mem_repeatedItems h
      exact hm.of_mem hf hws h
    · exact hd d h

theorem node_extend (hf : (S m.cls).member? k = some f) (hn : f.mapKeyCodec = none) (hr : f.repeated)
    {vs : List (Value Message)} :
    (m.extend k vs).node observe S =
      (m.node observe S).update k (.repeated ((m.repeatedItems k ++ vs).map (Value.map observe))) := by
  rw [node_eq_update (m.extend k vs) hf rfl rfl rfl ?_ fun _ _ => rfl]
  · simp [observation, hn, hr, Message.extend, repeatedItems]
  · exact fun k' hk => Function.update_of_ne hk ..

theorem Settled.setEntry (hm : m.Settled S U (n + 1)) (hf : (S m.cls).member? k = some f)
    {keyCodec : Codec} (hn : f.mapKeyCodec = some keyCodec) {key : Scalar} {v : Value Message}
    (hkey : keyCodec.accepts key) (hv : v.acceptedBy f.codec) (hd : ∀ d, v = .message d → d.Settled S U n) :
    (m.setEntry k key v).Settled S U (n + 1) := by
  refine hm.setContainer hf (.inl <| by simp [hn]) ⟨keyCodec, hn, fun key' v' h => ?_⟩ fun d h => ?_
  · rw [FinMap.get?_set] at h
    split at h
    case isTrue hk => cases h; exact ⟨hk ▸ hkey, hv⟩
    obtain ⟨d, hd, h⟩ := get?_mapItems h
    obtain ⟨keyCodec', hn', hfit⟩ := hm.left.isLocal.fits hf hd
    cases hn.symm.trans hn'
    exact hfit key' v' h
  · obtain ⟨key', h⟩ := h
    rw [FinMap.get?_set] at h
    split at h
    case isTrue => exact hd d <| Option.some.inj h
    obtain ⟨e, he, h⟩ := get?_mapItems h
    exact hm.of_mem hf he ⟨key', h⟩

theorem Local.addUnknown (hm : m.Local S) {records : List Bytes} : (m.addUnknown records).Local S :=
  ⟨hm.fits, hm.stored, hm.oneof⟩

theorem Settled.addUnknown (hm : m.Settled S U (n + 1)) {records : List Bytes}
    (hu : ∀ x ∈ records, U n m.cls x) : (m.addUnknown records).Settled S U (n + 1) := by
  refine ⟨⟨⟨hm.left.isLocal.addUnknown, fun x h => ?_⟩, hm.left.noStale⟩, hm.right⟩
  rcases List.mem_append.mp h with h | h
  · exact hm.left.unknown x h
  · exact hu x h

end

section

def Selects (S : Schema) (m : Message) : Prop :=
  ∀ o n, m.oneofs o = some n → ∃ g, (S m.cls).field? n = some g ∧ g.oneof = some o ∧
    g.mapKeyCodec = none ∧ ¬g.repeated

theorem Local.selects (hm : m.Local S) : m.Selects S := by
  intro o n h
  have ⟨g, hg, ho, hp⟩ := hm.oneof.mp h
  have ⟨g', v, hg', _, hv⟩ := hm.stored hp
  cases hg.symm.trans hg'
  have ⟨hn, hr, _⟩ := hm.fits hg' hv
  exact ⟨g, hg, ho, hn, hr⟩

attribute [local simp] clearSelected

theorem clearSelected_cases (hm : m.Selects S) :
    ((∀ k, ¬Deselects m.oneofs f k) ∧ m.clearSelected S f = m) ∨
    ∃ (o : Text) (g : Field), f.oneof = some o ∧ g.number ≠ f.number ∧ m.oneofs o = some g.number ∧
      (∀ k, Deselects m.oneofs f k ↔ k = g.key) ∧
      m.clearSelected S f = ((m.setValue g.key none).setPresent g.key false).setOneof o none := by
  cases ho : f.oneof
  case none => exact .inl ⟨by simp [Deselects, ho], by simp [ho]⟩
  case some o =>
    cases hs : m.oneofs o
    case none => exact .inl ⟨by simp [Deselects, ho, hs], by simp [ho, hs]⟩
    case some n =>
      have ⟨g, hg, hgo, hn, hr⟩ := hm o n hs
      have hgn := MessageClass.number_of_field? hg
      subst hgn
      by_cases hne : g.number = f.number
      · exact .inl ⟨by simp [Deselects, ho, hs, hne], by simp [ho, hs, ← hne, hg]⟩
      · refine .inr ⟨o, g, rfl, hne, hs, fun k => ?_, ?_⟩
        · simp [Deselects, ho, hs, hne, Field.key]
        · simp [ho, hs, hg, hne, clearState, Field.map, hn, hr, hgo]

def markSelected (m : Message) (k : Key) (f : Field) : Message :=
  let m := f.oneof.elim m fun o => m.setOneof o (some f.number)
  if f.hasPresence then m.setPresent k true else m

theorem storeValue_eq {w : Value Message} :
    m.storeValue S k f w = ((m.setValue k (some (.singular w))).clearSelected S f).markSelected k f := by
  unfold storeValue select markSelected clearSelected
  cases f.oneof <;> rfl

theorem deselects_ne (hf : (S m.cls).member? k = some f) {oneofs : Text → Option Nat} {k' : Key}
    (h : Deselects oneofs f k') : k' ≠ k := by
  obtain ⟨o, n, ho, _, rfl, hn⟩ := h
  rw [MessageClass.key_of_oneof hf ho]
  simpa [Field.key] using hn

theorem storeValue_clearSelected (hm : m.Selects S) (hf : (S m.cls).member? k = some f) {w : Value Message} :
    (m.clearSelected S f).storeValue S k f w = m.storeValue S k f w := by
  have hm' : (m.setValue k (some (.singular w))).Selects S := hm
  rcases clearSelected_cases (f := f) hm with ⟨_, h⟩ | ⟨o, g, ho, _, hs, hd, h⟩
  case inl => rw [h]
  have hk : g.key ≠ k := deselects_ne hf <| (hd g.key).mpr rfl
  rcases clearSelected_cases (f := f) hm' with ⟨hnd, _⟩ | ⟨o', g', ho', _, hs', _, h'⟩
  case inl => exact absurd ((hd g.key).mpr rfl) (hnd g.key)
  cases ho.symm.trans ho'
  have hg : g'.key = g.key := by
    rw [oneofs_setValue, hs] at hs'
    rw [Field.key, Field.key, Option.some.inj hs']
  have hn {m' : Message} (hm : m'.oneofs o = none) : m'.clearSelected S f = m' := by
    simp [ho, hm]
  rw [storeValue_eq, storeValue_eq, h, h', hg, hn (by simp)]
  refine congrArg (markSelected · k f) <| ext rfl ?_ rfl rfl rfl
  exact Function.update_comm hk ..

theorem markSelected_frame : (m.markSelected k f).cls = m.cls ∧ (m.markSelected k f).values = m.values ∧
    (m.markSelected k f).unknownFields = m.unknownFields := by
  unfold markSelected
  cases f.oneof <;> by_cases hp : f.hasPresence <;> simp [hp]

attribute [local simp] Function.update_apply

theorem present_markSelected {k' : Key} :
    (m.markSelected k f).present k' = if k' = k then m.present k || f.hasPresence else m.present k' := by
  unfold markSelected
  by_cases hp : f.hasPresence
  case pos => cases f.oneof <;> simp [hp]
  have hk : m.present k' = if k' = k then m.present k else m.present k' := by
    split
    case isTrue h => rw [h]
    case isFalse => rfl
  cases f.oneof <;> simpa [hp] using hk

theorem oneofs_markSelected {o : Text} :
    (m.markSelected k f).oneofs o = if f.oneof = some o then some f.number else m.oneofs o := by
  unfold markSelected
  cases f.oneof <;> by_cases hp : f.hasPresence <;> simp [hp, eq_comm]

open Classical in
structure Stores (m : Message) (k : Key) (f : Field) (w : Value Message) (r : Message) : Prop where
  cls : r.cls = m.cls
  values : ∀ k', r.values k' =
    if k' = k then some (.singular w) else if Deselects m.oneofs f k' then none else m.values k'
  present : ∀ k', r.present k' =
    if k' = k then m.present k || f.hasPresence else if Deselects m.oneofs f k' then false else m.present k'
  oneofs : ∀ o, r.oneofs o = if f.oneof = some o then some f.number else m.oneofs o
  unknownFields : r.unknownFields = m.unknownFields

theorem storeValue_stores {w : Value Message} (hm : m.Selects S) (hf : (S m.cls).member? k = some f) :
    m.Stores k f w (m.storeValue S k f w) := by
  rw [storeValue_eq]
  have hm' : (m.setValue k (some (.singular w))).Selects S := hm
  have ⟨hc, hv, hu⟩ := markSelected_frame
    (m := (m.setValue k (some (.singular w))).clearSelected S f) (k := k) (f := f)
  rcases clearSelected_cases (f := f) hm' with ⟨hn, h⟩ | ⟨o, g, ho, hne, hs, hd, h⟩ <;>
    rw [h] at hc hv hu ⊢
  · rw [oneofs_setValue] at hn
    exact {
      cls := hc
      values k' := by rw [hv]; simp [hn]
      present k' := by rw [present_markSelected]; simp [hn]
      oneofs o := by rw [oneofs_markSelected]; rfl
      unknownFields := hu
    }
  · rw [oneofs_setValue] at hs hd
    have hk : g.key ≠ k := deselects_ne hf <| (hd g.key).mpr rfl
    exact {
      cls := hc
      values k' := by
        rw [hv]
        by_cases h' : k' = g.key <;> simp [hd, h', hk]
      present k' := by
        rw [present_markSelected]
        by_cases h' : k' = g.key <;> simp [hd, h', hk, hk.symm]
      oneofs o' := by
        rw [oneofs_markSelected, ho]
        by_cases h' : o = o' <;> simp [h']
        exact fun he => absurd he.symm h'
      unknownFields := hu
    }

end

namespace Stores

variable {n : Nat} {w : Value Message} {r : Message}

theorem isLocal (hs : m.Stores k f w r) (hm : m.Local S) (hf : (S m.cls).member? k = some f)
    (hw : (Slot.singular w).Fits f) : r.Local S where
  fits := by
    intro k' f' s hf' h
    rw [hs.cls] at hf'
    rw [hs.values] at h
    split at h
    case isTrue hk =>
      cases h
      subst hk
      cases hf.symm.trans hf'
      exact hw
    split at h
    · cases h
    · exact hm.fits hf' h
  stored := by
    intro k' hp
    rw [hs.present] at hp
    rw [hs.cls, hs.values]
    split at hp
    case isTrue hk =>
      subst hk
      refine ⟨f, w, hf, ?_, by simp⟩
      rcases Bool.or_eq_true_iff.mp hp with hp | hp
      · have ⟨f', _, hf', hp', _⟩ := hm.stored hp
        cases hf.symm.trans hf'
        exact hp'
      · exact hp
    case isFalse hk =>
      split at hp
      case isTrue => cases hp
      case isFalse hd =>
        rw [if_neg hk, if_neg hd]
        exact hm.stored hp
  oneof := by
    intro o n'
    rw [hs.oneofs, hs.cls]
    split
    case isTrue ho =>
      -- The field is the only member of its oneof that is still present.
      have hk := MessageClass.key_of_oneof hf ho
      subst hk
      constructor
      · rintro ⟨⟩
        refine ⟨f, hf, ho, ?_⟩
        rw [hs.present]
        simp [Field.key, Field.hasPresence_of_oneof ho]
      · intro ⟨g, hg, hgo, hp⟩
        rw [hs.present] at hp
        split at hp
        case isTrue hk => cases hk; rfl
        case isFalse hk =>
          split at hp
          case isTrue => cases hp
          case isFalse hd =>
            refine absurd ⟨o, n', ho, hm.oneof.mpr ⟨g, hg, hgo, hp⟩, rfl, ?_⟩ hd
            simpa [Field.key] using hk
    case isFalse ho =>
      rw [hm.oneof]
      refine exists_congr fun g => and_congr_right fun hg => and_congr_right fun hgo => ?_
      have hk : .field n' ≠ k := by
        rintro rfl
        cases hg.symm.trans hf
        exact ho hgo
      have hd : ¬Deselects m.oneofs f (.field n') := by
        rintro ⟨o', _, ho', hs', ⟨⟩, _⟩
        have ⟨g', hg', hgo', _⟩ := hm.oneof.mp hs'
        cases hg.symm.trans hg'
        cases hgo.symm.trans hgo'
        exact ho ho'
      rw [hs.present, if_neg hk, if_neg hd]

theorem settled (hs : m.Stores k f w r) (hm : m.Settled S U (n + 1)) (hf : (S m.cls).member? k = some f)
    (hw : (Slot.singular w).Fits f) (hd : ∀ d, w = .message d → d.Settled S U n) : r.Settled S U (n + 1) := by
  have hu : ∀ x ∈ r.unknownFields, U n r.cls x := by rw [hs.unknownFields, hs.cls]; exact hm.left.unknown
  refine ⟨⟨⟨hs.isLocal hm.left.isLocal hf hw, hu⟩, ?_⟩, ?_⟩
  · intro k' f' v hf' hp hv
    rw [hs.cls] at hf'
    rw [hs.values] at hv
    rw [hs.present]
    split at hv
    case isTrue hk =>
      subst hk
      cases hf.symm.trans hf'
      simp [hp]
    case isFalse hk =>
      split at hv
      case isTrue => cases hv
      case isFalse hd' =>
        rw [if_neg hk, if_neg hd']
        exact hm.left.noStale k' f' v hf' hp hv
  · rintro d ⟨k', f', s, hf', hv, hc, _⟩
    rw [hs.cls] at hf'
    rw [hs.values] at hv
    split at hv
    case isTrue => cases hv; exact hd d hc.symm
    split at hv
    · cases hv
    · exact hm.of_mem hf' hv hc

theorem node_eq {μ : Type} {observe : Message → μ} (hs : m.Stores k f w r) (hm : m.Selects S)
    (hf : (S m.cls).member? k = some f) (hw : (Slot.singular w).Fits f) :
    r.node observe S = ((m.node observe S).select f).update k (.singular (w.map observe)) := by
  have ⟨hn, hr, _⟩ := hw
  ext1
  case cls => exact hs.cls
  case oneofs => exact funext hs.oneofs
  case unknownFields => exact hs.unknownFields
  case members =>
    funext k'
    have hn' : (r.node observe S).members k' =
        ((S m.cls).member? k').elim .absent (r.observation observe k') := by rw [node, hs.cls]
    rw [hn', Node.members_update]
    split
    case isTrue hk =>
      subst hk
      have hv : r.values k' = some (.singular w) := by simp [hs.values]
      have hp : f.hasPresence → r.present k' := fun hp => by simp [hs.present, hp]
      rw [hf, Option.elim_some, observation, hn]
      by_cases h : f.hasPresence
      · simp [hr, h, hv, hp h]
      · simp [hr, h, hv]
    case isFalse hk =>
      by_cases hd : Deselects m.oneofs f k'
      · rw [Node.members_select_of_deselects hd]
        have hp : r.present k' = false := by rw [hs.present, if_neg hk, if_pos hd]
        obtain ⟨o, n', _, hs', rfl, _⟩ := hd
        have ⟨g, hg, hgo, hgn, hgr⟩ := hm o n' hs'
        have hg' : (S m.cls).member? (.field n') = some g := hg
        simp [hg', observation, hgn, hgr, Field.hasPresence_of_oneof hgo, hp]
      · rw [Node.members_select_of_not_deselects hd, node]
        congr! 1
        funext f'
        refine observation_congr ?_ ?_
        · rw [hs.values, if_neg hk, if_neg hd]
        · rw [hs.present, if_neg hk, if_neg hd]

end Stores

end Message

end Protos
