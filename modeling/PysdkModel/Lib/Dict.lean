import Mathlib.Data.List.Nodup
import Mathlib.Data.List.Perm.Subperm
import Mathlib.Data.List.Lookmap

-- A dictionary that remembers the order in which its keys were inserted. Assigning to a key that
-- is already there keeps the key's position.
@[ext]
structure Dict (κ : Type*) (ν : Type*) where
  entries : List (κ × ν)
  nodup : (entries.map Prod.fst).Nodup

namespace Dict

variable {κ ν μ : Type*}

def empty : Dict κ ν :=
  ⟨[], .nil⟩

instance : EmptyCollection (Dict κ ν) where
  emptyCollection := empty

def keys (d : Dict κ ν) : List κ :=
  d.entries.map Prod.fst

def length (d : Dict κ ν) : Nat :=
  d.entries.length

def isEmpty (d : Dict κ ν) : Bool :=
  d.entries.isEmpty

def map (f : ν → μ) (d : Dict κ ν) : Dict κ μ where
  entries := d.entries.map fun (k, v) => (k, f v)
  nodup := by simpa [Function.comp_def] using d.nodup

def filterValues (p : ν → Bool) (d : Dict κ ν) : Dict κ ν where
  entries := d.entries.filter (p ·.2)
  nodup := d.nodup.sublist (List.filter_sublist.map _)

variable {f : ν → Option μ} {es : List (κ × ν)}

theorem keys_mapM {es' : List (κ × μ)} (h : (es.mapM fun e => (f e.2).map (e.1, ·)) = some es') :
    es'.map Prod.fst = es.map Prod.fst := by
  induction es generalizing es'
  case nil => simp_all
  case cons e es ih =>
    simp only [List.mapM_cons, Option.bind_eq_bind, Option.bind_eq_some_iff, Option.map_eq_some_iff,
      Option.pure_def, Option.some.injEq] at h
    obtain ⟨_, ⟨v, -, rfl⟩, vs, hv, rfl⟩ := h
    simp [ih hv]

variable {k : κ}

theorem mem_of_mapM {es' : List (κ × μ)} (h : (es.mapM fun e => (f e.2).map (e.1, ·)) = some es') {w : μ} :
    (k, w) ∈ es' ↔ ∃ v, (k, v) ∈ es ∧ f v = some w := by
  induction es generalizing es'
  case nil => simp_all
  case cons e es ih =>
    simp only [List.mapM_cons, Option.bind_eq_bind, Option.bind_eq_some_iff, Option.map_eq_some_iff,
      Option.pure_def, Option.some.injEq] at h
    obtain ⟨_, ⟨v, hv, rfl⟩, vs, hvs, rfl⟩ := h
    simp only [List.mem_cons, ih hvs, Prod.ext_iff]
    constructor
    · rintro (⟨rfl, rfl⟩ | ⟨v, hm, hf⟩)
      · exact ⟨e.2, .inl ⟨rfl, rfl⟩, hv⟩
      · exact ⟨v, .inr hm, hf⟩
    · rintro ⟨u, ⟨rfl, rfl⟩ | hm, hf⟩
      · exact .inl ⟨rfl, Option.some.inj <| hf.symm.trans hv⟩
      · exact .inr ⟨u, hm, hf⟩

def mapM? (f : ν → Option μ) (d : Dict κ ν) : Option (Dict κ μ) :=
  match h : d.entries.mapM fun e => (f e.2).map (e.1, ·) with
  | some es => some ⟨es, keys_mapM h ▸ d.nodup⟩
  | none => none

theorem length_keys (d : Dict κ ν) : d.keys.length = d.length := by
  simp [keys, length]

variable {d : Dict κ ν}

section

variable [DecidableEq κ]

def setEntry (k : κ) (v : ν) : List (κ × ν) → List (κ × ν)
  | [] => [(k, v)]
  | (k', v') :: es => if k' = k then (k, v) :: es else (k', v') :: setEntry k v es

theorem mem_keys_setEntry {v : ν} {j : κ} : j ∈ (setEntry k v es).map Prod.fst ↔ j = k ∨ j ∈ es.map Prod.fst := by
  induction es
  case nil => simp [setEntry]
  case cons e es ih =>
    obtain ⟨k', v'⟩ := e
    simp only [setEntry]
    split
    case isTrue h => simp [h]
    case isFalse h => simp only [List.map_cons, List.mem_cons, ih]; tauto

theorem nodup_setEntry {v : ν} (h : (es.map Prod.fst).Nodup) : ((setEntry k v es).map Prod.fst).Nodup := by
  induction es
  case nil => simp [setEntry]
  case cons e es ih =>
    obtain ⟨k', v'⟩ := e
    simp only [List.map_cons, List.nodup_cons] at h
    simp only [setEntry]
    split
    case isTrue hk => simpa [← hk] using h
    case isFalse hk =>
      simp only [List.map_cons, List.nodup_cons, mem_keys_setEntry]
      exact ⟨fun hc => hc.elim hk h.left, ih h.right⟩

def get? (d : Dict κ ν) (k : κ) : Option ν :=
  d.entries.find? (·.1 = k) |>.map Prod.snd

def contains (d : Dict κ ν) (k : κ) : Bool :=
  (d.get? k).isSome

def set (d : Dict κ ν) (k : κ) (v : ν) : Dict κ ν :=
  ⟨setEntry k v d.entries, nodup_setEntry d.nodup⟩

def erase (d : Dict κ ν) (k : κ) : Dict κ ν where
  entries := d.entries.filter (·.1 ≠ k)
  nodup := d.nodup.sublist (List.filter_sublist.map _)

-- One loop iteration that reads the entry of `k` and then overwrites or deletes it.
def alter (d : Dict κ ν) (k : κ) (f : Option ν → Option ν) : Dict κ ν :=
  match f (d.get? k) with
  | some v => d.set k v
  | none => d.erase k

-- The loop `for k, v in e.items(): ...` whose body only reads and writes the entry of `k` in `d`.
-- The body gets the membership of `(k, v)`, so that it may recurse on `v`.
def alterEach (e : Dict κ ν) (d : Dict κ μ)
    (f : (k : κ) → (v : ν) → (k, v) ∈ e.entries → Option μ → Option μ) : Dict κ μ :=
  e.entries.attach.foldl (fun d kv => d.alter kv.1.1 (f kv.1.1 kv.1.2 kv.2)) d

theorem find?_eq_some_iff (h : (es.map Prod.fst).Nodup) {v : ν} :
    (es.find? (·.1 = k)).map Prod.snd = some v ↔ (k, v) ∈ es := by
  induction es
  case nil => simp
  case cons e es ih =>
    obtain ⟨k', v'⟩ := e
    simp only [List.map_cons, List.nodup_cons] at h
    rw [List.find?_cons]
    by_cases hk : k' = k
    · have hm : (k, v) ∉ es := fun hm => h.left <| hk ▸ List.mem_map_of_mem (f := Prod.fst) hm
      simp [hk, hm, eq_comm]
    · simp [hk, ih h.right, Ne.symm hk]

theorem get?_eq_some_iff {v : ν} : d.get? k = some v ↔ (k, v) ∈ d.entries :=
  find?_eq_some_iff d.nodup

theorem get?_eq_none_iff : d.get? k = none ↔ k ∉ d.keys := by
  simp only [get?, keys, Option.map_eq_none_iff, List.find?_eq_none, decide_eq_true_eq, List.mem_map,
    not_exists, not_and]

theorem mem_keys_iff : k ∈ d.keys ↔ ∃ v, d.get? k = some v := by
  rw [← not_iff_not, ← get?_eq_none_iff, Option.eq_none_iff_forall_ne_some]
  simp

theorem contains_iff : d.contains k ↔ ∃ v, d.get? k = some v := by
  simp [contains, Option.isSome_iff_exists]

@[simp]
theorem get?_empty : (∅ : Dict κ ν).get? k = none :=
  rfl

@[simp]
theorem get?_set {j : κ} {v : ν} : (d.set k v).get? j = if j = k then some v else d.get? j := by
  obtain ⟨es, h⟩ := d
  simp only [set, get?]
  clear h
  induction es
  case nil => by_cases hj : j = k <;> simp [setEntry, hj, @eq_comm _ k]
  case cons e es ih =>
    obtain ⟨k', v'⟩ := e
    simp only [setEntry]
    by_cases hk : k' = k
    case pos => by_cases hj : j = k <;> simp [hk, hj, @eq_comm _ k]
    simp only [hk, ↓reduceIte, List.find?_cons]
    by_cases hj : k' = j
    · simp [hj, hj ▸ hk]
    · simpa [hj] using ih

@[simp]
theorem get?_erase {j : κ} : (d.erase k).get? j = if j = k then none else d.get? j := by
  ext v
  rw [get?_eq_some_iff]
  by_cases hj : j = k <;> simp [erase, hj, get?_eq_some_iff]

@[simp]
theorem get?_filterValues {p : ν → Bool} : (d.filterValues p).get? k = (d.get? k).filter p := by
  ext v
  rw [get?_eq_some_iff]
  simp [filterValues, get?_eq_some_iff, Option.filter_eq_some_iff]

@[simp]
theorem get?_alter {j : κ} {f : Option ν → Option ν} :
    (d.alter k f).get? j = if j = k then f (d.get? k) else d.get? j := by
  simp only [alter]
  split <;> simp [*]

@[simp]
theorem get?_map {f : ν → μ} : (d.map f).get? k = (d.get? k).map f := by
  simp only [get?, map, List.find?_map, Option.map_map]
  rfl

-- The loop rule: each key of `e` is visited once, so the final entry of `k` is what the body makes
-- of the initial one.
theorem get?_alterEach {e : Dict κ ν} {d : Dict κ μ}
    {f : (k : κ) → (v : ν) → (k, v) ∈ e.entries → Option μ → Option μ} :
    (e.alterEach d f).get? k =
      match h : e.get? k with
      | some v => f k v (get?_eq_some_iff.mp h) (d.get? k)
      | none => d.get? k := by
  have go (l : List { kv // kv ∈ e.entries }) (hl : (l.map (·.1.1)).Nodup) (d : Dict κ μ) :
      (l.foldl (fun d kv => d.alter kv.1.1 (f kv.1.1 kv.1.2 kv.2)) d).get? k =
        match l.find? (·.1.1 = k) with
        | some kv => f kv.1.1 kv.1.2 kv.2 (d.get? k)
        | none => d.get? k := by
    induction l generalizing d
    case nil => rfl
    case cons kv l ih =>
      simp only [List.map_cons, List.nodup_cons] at hl
      rw [List.foldl_cons, ih hl.right, List.find?_cons]
      by_cases hk : kv.1.1 = k
      · have hn : l.find? (·.1.1 = k) = none := by
          rw [List.find?_eq_none]
          intro kv' hm
          simp only [decide_eq_true_eq]
          exact fun hc => hl.left <| List.mem_map.mpr ⟨kv', hm, hc.trans hk.symm⟩
        simp [hn, hk]
      · simp [hk, Ne.symm hk]
  have hn : (e.entries.attach.map (·.1.1)).Nodup := by
    have := e.nodup
    rwa [← List.attach_map_subtype_val e.entries, List.map_map] at this
  rw [alterEach, go _ hn]
  split
  case h_1 kv hkv =>
    have hk : kv.1.1 = k := by simpa using List.find?_some hkv
    have hg : e.get? k = some kv.1.2 := get?_eq_some_iff.mpr <| hk ▸ kv.2
    subst hk
    split
    case h_1 v hv => cases hv.symm.trans hg; rfl
    case h_2 hv => simp [hg] at hv
  case h_2 hkv =>
    split
    case h_2 => rfl
    case h_1 v hv =>
      have := List.find?_eq_none.mp hkv ⟨(k, v), get?_eq_some_iff.mp hv⟩ (List.mem_attach ..)
      simp at this

theorem get?_alterEach_simple {e : Dict κ ν} {d : Dict κ μ} {f : κ → ν → Option μ → Option μ} :
    (e.alterEach d fun k v _ => f k v).get? k = (e.get? k).elim (d.get? k) (f k · (d.get? k)) := by
  rw [get?_alterEach]
  split <;> simp [*]

theorem get?_of_mapM? {d' : Dict κ μ} (h : d.mapM? f = some d') : d'.get? k = (d.get? k).bind f := by
  have hm {w} : (k, w) ∈ d'.entries ↔ ∃ v, (k, v) ∈ d.entries ∧ f v = some w := by
    rw [mapM?] at h
    split at h
    case h_1 hes => cases h; exact mem_of_mapM hes
    case h_2 => cases h
  ext w
  simp only [Option.bind_eq_some_iff, get?_eq_some_iff, hm]

theorem mapM?_isSome (h : ∀ k v, d.get? k = some v → (f v).isSome) : ∃ d', d.mapM? f = some d' := by
  have go (es : List (κ × ν)) (hes : ∀ e ∈ es, (f e.2).isSome) :
      ∃ es', (es.mapM fun e => (f e.2).map (e.1, ·)) = some es' := by
    induction es
    case nil => exact ⟨[], rfl⟩
    case cons e es ih =>
      have ⟨v, hv⟩ := Option.isSome_iff_exists.mp <| hes e (by simp)
      have ⟨es', hes'⟩ := ih fun e he => hes e (by simp [he])
      exact ⟨(e.1, v) :: es', by simp [hv, hes']⟩
  have ⟨es', hes'⟩ := go d.entries fun e he => h e.1 e.2 <| get?_eq_some_iff.mpr he
  rw [mapM?]
  split
  case h_1 => exact ⟨_, rfl⟩
  case h_2 hn => cases hn.symm.trans hes'

theorem isSome_of_mapM? {d' : Dict κ μ} (h : d.mapM? f = some d') {v : ν} (hk : d.get? k = some v) : (f v).isSome := by
  have hkeys : d'.keys = d.keys := by
    rw [mapM?] at h
    split at h
    case h_1 hes => cases h; exact keys_mapM hes
    case h_2 => cases h
  obtain ⟨w, hw⟩ := mem_keys_iff.mp <| hkeys ▸ mem_keys_iff.mpr ⟨v, hk⟩
  rw [get?_of_mapM? h, hk, Option.bind_some] at hw
  simp [hw]

theorem isEmpty_iff : d.isEmpty ↔ ∀ k, d.get? k = none := by
  obtain ⟨es, h⟩ := d
  cases es
  case nil => simp [isEmpty, get?]
  case cons e es =>
    simp only [isEmpty, List.isEmpty_cons, Bool.false_eq_true, false_iff, not_forall]
    exact ⟨e.1, by simp [get?]⟩

end

theorem keys_subset_of_length_eq {e : Dict κ μ} (hl : d.length = e.length)
    (hs : d.keys ⊆ e.keys) : e.keys ⊆ d.keys := by
  have hp := d.nodup.subperm hs
  have hp := hp.perm_of_length_le <| by rw [length_keys, ← hl]; simp [length]
  exact hp.symm.subset

theorem length_eq_of_keys_iff {e : Dict κ μ} (h : ∀ k, k ∈ d.keys ↔ k ∈ e.keys) : d.length = e.length := by
  rw [← length_keys, ← length_keys]
  exact (List.perm_ext_iff_of_nodup d.nodup e.nodup).mpr h |>.length_eq

end Dict
