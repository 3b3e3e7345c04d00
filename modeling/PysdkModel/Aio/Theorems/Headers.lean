import PysdkModel.Aio.Theorems.Attempts
import PysdkModel.Lib.Entries

namespace Aio

namespace Metadata

variable {C : CaseMap} {m : Metadata} {key value token : Text}

def IsLower (C : CaseMap) (m : Metadata) : Prop :=
  ∀ e ∈ m, C.lower e.1 = e.1

theorem lower_idempotencyKey : C.lower idempotencyKey = idempotencyKey :=
  C.simple _ rfl

theorem lower_authorization : C.lower authorization = authorization :=
  C.simple _ rfl

theorem isLower_ofItems {items : List (Item × Item)} : (ofItems C items).IsLower C := by
  intro e he
  obtain ⟨i, _, hi⟩ := List.mem_filterMap.mp he
  split at hi
  case h_1 => cases hi; exact C.idem _
  case h_2 => cases hi

theorem IsLower.copy (h : m.IsLower C) : m.copy C = m := by
  have hid : m.map (fun e => (C.lower e.1, e.2)) = m.map id :=
    List.map_congr_left fun e he => Prod.ext (h e he) rfl
  rw [Metadata.copy, hid, List.map_id]

theorem IsLower.delete (h : m.IsLower C) : (m.delete C key).IsLower C :=
  fun e he => h e (List.mem_filter.mp he).1

theorem IsLower.add (h : m.IsLower C) : (m.add C key value).IsLower C := by
  intro e he
  rcases List.mem_append.mp he with he | he
  · exact h e he
  · rw [List.mem_singleton.mp he]; exact C.idem _

theorem IsLower.ensureKey (h : m.IsLower C) : (m.ensureKey C key).IsLower C := by
  unfold Metadata.ensureKey
  split
  · exact h.delete.add
  · exact h

theorem values_replace : ((m.delete C key).add C key value).values C key = [value] := by
  simp [values, delete, add, List.filter_filter]

theorem values_replace_ne {key' : Text} (h : C.lower key' ≠ C.lower key) :
    ((m.delete C key).add C key value).values C key' = m.values C key' := by
  simp only [values, delete, add, List.filter_append, List.filter_filter, List.filter_singleton]
  rw [decide_eq_false h.symm, cond_false, List.append_nil]
  refine congrArg (List.map Prod.snd) (List.filter_congr fun e _ => ?_)
  by_cases he : e.1 = C.lower key' <;> simp [he, h]

theorem others_replace (h : C.lower key = idempotencyKey ∨ C.lower key = authorization) :
    ((m.delete C key).add C key value).others = m.others := by
  simp only [others, delete, add, List.filter_append, List.filter_filter, List.filter_singleton]
  rw [decide_eq_false (by rcases h with h | h <;> simp [h]), cond_false, List.append_nil]
  refine List.filter_congr fun e _ => ?_
  rcases h with h | h <;> simp +contextual [h]

theorem values_ensureKey : (m.ensureKey C key).values C idempotencyKey =
    if m.values C idempotencyKey = [] ∨ m.values C idempotencyKey = [[]] then [key] else m.values C idempotencyKey := by
  unfold ensureKey
  split
  · exact values_replace
  · rfl

theorem others_ensureKey : (m.ensureKey C key).others = m.others := by
  unfold ensureKey
  split
  · exact others_replace (.inl lower_idempotencyKey)
  · rfl

theorem values_of_others {m' : Metadata} (h : m.others = m'.others) (hi : key ≠ idempotencyKey)
    (ha : key ≠ authorization) : (m.filter (·.1 = key)).map Prod.snd = (m'.filter (·.1 = key)).map Prod.snd := by
  have hf (m : Metadata) : m.others.filter (·.1 = key) = m.filter (·.1 = key) := by
    rw [others, List.filter_filter]
    refine List.filter_congr fun e _ => ?_
    by_cases he : e.1 = key <;> simp [he, hi, ha]
  rw [← hf m, ← hf m', h]

end Metadata

namespace GrpcMetadata

variable {g : GrpcMetadata} {key key' value : Text} {vs : List Text}

theorem getAll_set : getAll (g.set key vs) key' = if key' = key then vs else g.getAll key' := by
  unfold getAll
  rw [Dict.get?_set]
  split <;> rfl

theorem getAll_ofEntries {m : Metadata} : (ofEntries m).getAll key = (m.filter (·.1 = key)).map Prod.snd := by
  have hfold (g : GrpcMetadata) : (m.foldl (fun g e => g.add e.1 e.2) g).getAll key =
      g.getAll key ++ (m.filter (·.1 = key)).map Prod.snd := by
    induction m generalizing g with
    | nil => simp
    | cons e m ih =>
      rw [List.foldl_cons, ih, add, getAll_set]
      by_cases he : e.1 = key
      · simp [he]
      · simp [he, Ne.symm he]
  exact hfold ∅

-- The interceptor leaves everything as it is, unless there is no key or the first one is empty.
theorem getAll_ensureKey : (g.ensureKey value).getAll key =
    if key = Metadata.idempotencyKey ∧ (g.getAll key).head?.getD [] = [] then value :: (g.getAll key).tail
    else g.getAll key := by
  unfold ensureKey first? setFirst
  split
  case isTrue h =>
    rw [getAll_set]
    by_cases hk : key = Metadata.idempotencyKey
    · subst hk
      simp [h]
    · simp [hk]
  case isFalse h =>
    rw [if_neg]
    rintro ⟨rfl, he⟩
    exact h he

end GrpcMetadata

namespace Attempts

variable {τ : Type} {cfg : Config τ}

theorem suppliedKeys_eq :
    suppliedKeys cfg = (Metadata.ofItems cfg.caseMap cfg.metadata).values cfg.caseMap Metadata.idempotencyKey := by
  rw [suppliedKeys, Metadata.values, Metadata.ofItems, Metadata.lower_idempotencyKey, List.filter_filterMap,
    List.map_filterMap]
  refine List.filterMap_congr fun e _ => ?_
  obtain ⟨k, v⟩ := e
  cases k <;> cases v
  case str.str k v => simp [Option.filter_some]
  all_goals rfl

structure Carries (cfg : Config τ) (m : Metadata) : Prop where
  keys : m.values cfg.caseMap Metadata.idempotencyKey =
    ((Metadata.ofItems cfg.caseMap cfg.metadata).ensureKey cfg.caseMap (cfg.newKey 0)).values cfg.caseMap
      Metadata.idempotencyKey
  others : m.others = (Metadata.ofItems cfg.caseMap cfg.metadata).others
  lower : m.IsLower cfg.caseMap

theorem Carries.authenticate {m : Metadata} {token : Text} (h : Carries cfg m) :
    Carries cfg (m.authenticate cfg.caseMap token) where
  keys := by
    rw [← h.keys]
    refine Metadata.values_replace_ne ?_
    rw [Metadata.lower_idempotencyKey, Metadata.lower_authorization]
    decide
  others := (Metadata.others_replace (.inr Metadata.lower_authorization)).trans h.others
  lower := h.lower.delete.add

def Authorized (cfg : Config τ) (m : Metadata) (token : Option Text) : Prop :=
  ∃ t, token = some t ∧ m.values cfg.caseMap Metadata.authorization = [Metadata.bearer t]

def Sends (cfg : Config τ) (n : Nat) (a : Attempt τ) : Prop :=
  ∃ m, Carries cfg m ∧ (cfg.provider = true → Authorized cfg m a.token) ∧
    a.metadata = (GrpcMetadata.ofEntries m).ensureKey (cfg.newKey (n + 1))

structure Headers (cfg : Config τ) (s : Attempts τ) : Prop where
  input : Carries cfg s.inputMetadata
  token : s.token.isSome → Authorized cfg s.inputMetadata s.token
  loop : cfg.provider = true → s.phase.InLoop → s.token.isSome
  opened : ∀ {n a}, s.opened[n]? = some a → Sends cfg n a

namespace Headers

variable [AddCommGroup τ] [LinearOrder τ] {s s' : Attempts τ}

omit [LinearOrder τ] in
theorem initial : Headers cfg (initial cfg) where
  input := ⟨rfl, Metadata.others_ensureKey, Metadata.isLower_ofItems.ensureKey⟩
  token := by simp [Attempts.initial]
  loop := by rintro _ (⟨⟨⟩⟩ | ⟨_, ⟨⟩⟩)
  opened := by simp [Attempts.initial]

omit [AddCommGroup τ] [LinearOrder τ] in
theorem frame (h : Headers cfg s) (hm : s'.inputMetadata = s.inputMetadata) (ht : s'.token = s.token)
    (ho : s'.opened = s.opened) (hp : s'.phase.InLoop → s.phase.InLoop ∨ cfg.provider = false) : Headers cfg s' where
  input := by rw [hm]; exact h.input
  token := by rw [hm, ht]; exact h.token
  loop := by
    intro hv hl
    rw [ht]
    rcases hp hl with hl | hn
    · exact h.loop hv hl
    · simp [hv] at hn
  opened := by rw [ho]; exact h.opened

theorem step {e : Event τ} (h : Headers cfg s) (hs : step cfg s e = some s') : Headers cfg s' := by
  cases Moves.of_step hs
  case ended hm hp =>
    exact h.frame hm.inputMetadata hm.token hm.opened (by simp [hp, Phase.InLoop])
  case submitted hp =>
    refine h.frame h.input.lower.copy rfl rfl ?_
    rintro (⟨⟨⟩⟩ | ⟨_, ⟨⟩⟩)
  case entered _ hv => exact h.frame rfl rfl rfl fun _ => .inr hv
  case authorizing now authorize _ _ =>
    obtain ⟨_, _, _, _, _, he⟩ := Moves.pauseRequestDeadline_eq cfg s now
    rw [he]
    refine h.frame rfl rfl rfl ?_
    rintro (⟨⟨⟩⟩ | ⟨_, ⟨⟩⟩)
  case authenticating =>
    refine h.frame rfl rfl rfl ?_
    rintro (⟨⟨⟩⟩ | ⟨_, ⟨⟩⟩)
  case repeating =>
    refine h.frame rfl rfl rfl ?_
    rintro (⟨⟨⟩⟩ | ⟨_, ⟨⟩⟩)
  case authenticated token resume enter _ _ =>
    unfold Attempts.authenticated
    extract_lets s₁
    obtain ⟨_, _, _, _, he⟩ := Moves.resumeRequestDeadline_eq cfg s₁ resume
    rw [he]
    have hi : Carries cfg ((s.inputMetadata.copy cfg.caseMap).authenticate cfg.caseMap token) := by
      rw [h.input.lower.copy]
      exact h.input.authenticate
    exact ⟨hi, fun _ => ⟨token, rfl, Metadata.values_replace⟩, fun _ _ => rfl, h.opened⟩
  case refused pause authorize attempt _ _ _ =>
    obtain ⟨_, _, _, _, _, he⟩ := Moves.pauseRequestDeadline_eq cfg s pause
    rw [he]
    refine h.frame rfl rfl rfl ?_
    rintro (⟨⟨⟩⟩ | ⟨_, ⟨⟩⟩)
  case retried hp _ _ _ => exact h.frame rfl rfl rfl fun _ => .inl hp
  case opened follows now clip hp _ _ =>
    have hl : s.phase.InLoop := .inr ⟨follows, hp⟩
    refine ⟨h.input, h.token, fun hv _ => h.loop hv hl, ?_⟩
    intro n a ha
    rcases List.getElem?_concat_cases ha with ha | ⟨rfl, rfl⟩
    · exact h.opened ha
    · exact ⟨_, h.input, fun hv => h.token (h.loop hv hl), by rw [h.input.lower.copy]⟩

end Headers

section Sends

variable {n : Nat} {a : Attempt τ}

-- The keys of a request before the interceptor: a request without a key, or with one that is empty, gets a new one.
def keysOf (cfg : Config τ) : List Text :=
  if suppliedKeys cfg = [] ∨ suppliedKeys cfg = [[]] then [cfg.newKey 0] else suppliedKeys cfg

theorem head_keysOf : (keysOf cfg).head?.getD [] = [] ↔ EmptyFirst cfg := by
  have hne := cfg.newKey_ne_nil 0
  unfold keysOf EmptyFirst
  match hs : suppliedKeys cfg with
  | [] => simp [hne]
  | [k] => by_cases hk : k = [] <;> simp [hk, hne]
  | k :: k' :: ks => simp

theorem Sends.keys (h : Sends cfg n a) : a.metadata.getAll Metadata.idempotencyKey =
    if EmptyFirst cfg then cfg.newKey (n + 1) :: (suppliedKeys cfg).tail else keysOf cfg := by
  obtain ⟨m, hm, -, he⟩ := h
  have hk : (GrpcMetadata.ofEntries m).getAll Metadata.idempotencyKey = keysOf cfg := by
    rw [GrpcMetadata.getAll_ofEntries, keysOf, suppliedKeys_eq, ← Metadata.values_ensureKey, ← hm.keys,
      Metadata.values, Metadata.lower_idempotencyKey]
  rw [he, GrpcMetadata.getAll_ensureKey, hk]
  simp only [true_and, head_keysOf]
  split
  case isTrue hf =>
    have : keysOf cfg = suppliedKeys cfg := if_neg fun hs => by
      rcases hs with hs | hs <;> simp [EmptyFirst, hs] at hf
    rw [this]
  case isFalse => rfl

theorem Sends.other {key : Text} (h : Sends cfg n a) (hi : key ≠ Metadata.idempotencyKey)
    (ha : key ≠ Metadata.authorization) : a.metadata.getAll key =
      ((Metadata.ofItems cfg.caseMap cfg.metadata).filter (·.1 = key)).map Prod.snd := by
  obtain ⟨m, hm, -, he⟩ := h
  rw [he, GrpcMetadata.getAll_ensureKey, if_neg (fun hc => hi hc.1), GrpcMetadata.getAll_ofEntries]
  exact Metadata.values_of_others hm.others hi ha

end Sends

end Attempts

end Aio
