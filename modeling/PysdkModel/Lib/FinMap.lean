import Mathlib.Data.List.Nodup
import Mathlib.Data.List.Perm.Basic
import Mathlib.Data.List.Sort

-- Finite maps with ordered keys, like Python's dictionaries. Values are a function of the keys, so that
-- an inductive type may occur in the values of its own maps.
structure FinMap (κ ν : Type) where
  keys : List κ
  nodup : keys.Nodup
  value : (k : κ) → k ∈ keys → ν

namespace FinMap

variable {κ ν : Type}

def empty : FinMap κ ν where
  keys := []
  nodup := List.nodup_nil
  value _ h := absurd h List.not_mem_nil

instance : EmptyCollection (FinMap κ ν) where
  emptyCollection := empty

def isEmpty (d : FinMap κ ν) : Bool :=
  d.keys.isEmpty

def entries (d : FinMap κ ν) : List (κ × ν) :=
  d.keys.attach.map fun k => (k.1, d.value k.1 k.2)

def values (d : FinMap κ ν) : List ν :=
  d.entries.map Prod.snd

theorem keys_entries {d : FinMap κ ν} : d.entries.map Prod.fst = d.keys := by
  simp [entries, List.map_map, Function.comp_def]

variable [DecidableEq κ] {d : FinMap κ ν} {k k' : κ} {v : ν}

def get? (d : FinMap κ ν) (k : κ) : Option ν :=
  if h : k ∈ d.keys then some (d.value k h) else none

def set (d : FinMap κ ν) (k : κ) (v : ν) : FinMap κ ν where
  keys := if k ∈ d.keys then d.keys else d.keys ++ [k]
  nodup := by
    split
    case isTrue => exact d.nodup
    case isFalse h =>
      rw [List.nodup_append]
      refine ⟨d.nodup, List.nodup_singleton k, fun a ha b hb => ?_⟩
      rw [List.mem_singleton.mp hb]
      exact fun he => h (he ▸ ha)
  value k' h :=
    if hk : k' = k then
      v
    else
      d.value k' <| by
        split at h
        · exact h
        · simpa [hk] using h

theorem get?_empty : (∅ : FinMap κ ν).get? k = none :=
  rfl

theorem mem_keys_set : k' ∈ (d.set k v).keys ↔ k' = k ∨ k' ∈ d.keys := by
  simp only [set]
  split
  case isTrue h => exact ⟨.inr, fun h' => h'.elim (fun he => he ▸ h) id⟩
  case isFalse => simp [or_comm]

theorem get?_set : (d.set k v).get? k' = if k' = k then some v else d.get? k' := by
  by_cases hk : k' = k
  case pos =>
    rw [get?, dif_pos (mem_keys_set.mpr <| .inl hk), if_pos hk]
    exact congrArg some <| dif_pos hk
  rw [if_neg hk, get?, get?]
  by_cases hm : k' ∈ d.keys
  · rw [dif_pos (mem_keys_set.mpr <| .inr hm), dif_pos hm]
    exact congrArg some <| dif_neg hk
  · rw [dif_neg (fun h => hm <| (mem_keys_set.mp h).resolve_left hk), dif_neg hm]

theorem mem_keys_iff : k ∈ d.keys ↔ (d.get? k).isSome := by
  simp only [get?]
  split <;> simp_all

theorem mem_entries_iff : (k, v) ∈ d.entries ↔ d.get? k = some v := by
  simp only [entries, List.mem_map, List.mem_attach, true_and, Prod.mk.injEq, Subtype.exists, get?]
  constructor
  · rintro ⟨_, h, rfl, rfl⟩
    rw [dif_pos h]
  · intro h
    split at h
    case isFalse => cases h
    case isTrue hk => exact ⟨k, hk, rfl, Option.some.inj h⟩

section

structure Orders (r : κ → κ → Prop) (keys : List κ) : Prop where
  total : ∀ a ∈ keys, ∀ b ∈ keys, r a b ∨ r b a
  trans : ∀ a ∈ keys, ∀ b ∈ keys, ∀ c ∈ keys, r a b → r b c → r a c
  antisymm : ∀ a ∈ keys, ∀ b ∈ keys, r a b → r b a → a = b

variable {r : κ → κ → Prop} [DecidableRel r] {d' : FinMap κ ν} {μ : Type} {f : ν → μ}

omit [DecidableEq κ] in
theorem pairwise_sorted (h : Orders r d.keys) :
    (d.entries.insertionSort fun a b => r a.1 b.1).Pairwise fun a b => r a.1 b.1 := by
  -- The relation is total only on the entries.
  let s (a b : {e // e ∈ d.entries}) := r a.1.1 b.1.1
  have hk (e : {e // e ∈ d.entries}) : e.1.1 ∈ d.keys := keys_entries (d := d) ▸ List.mem_map_of_mem e.2
  have : Std.Total s := ⟨fun a b => h.total _ (hk a) _ (hk b)⟩
  have : IsTrans _ s := ⟨fun a b c => h.trans _ (hk a) _ (hk b) _ (hk c)⟩
  have hp := List.pairwise_insertionSort s d.entries.attach
  rw [← List.attach_map_subtype_val d.entries,
    ← List.map_insertionSort s (fun a b => r a.1 b.1) Subtype.val d.entries.attach fun _ _ _ _ => Iff.rfl]
  exact List.pairwise_map.mpr hp

omit [DecidableEq κ] in
theorem nodup_entries_map : (d.entries.map (Prod.map id f)).Nodup := by
  have hk : ((d.entries.map (Prod.map id f)).map Prod.fst).Nodup := by
    rw [List.map_map, show Prod.fst ∘ Prod.map id f = Prod.fst from rfl, keys_entries]
    exact d.nodup
  exact hk.of_map

theorem mem_entries_map_iff {w : μ} : (k, w) ∈ d.entries.map (Prod.map id f) ↔ (d.get? k).map f = some w := by
  simp only [List.mem_map, Prod.exists, mem_entries_iff, Prod.map_apply, id, Prod.mk.injEq, Option.map_eq_some_iff]
  constructor
  · rintro ⟨_, v, hv, rfl, hw⟩
    exact ⟨v, hv, hw⟩
  · rintro ⟨v, hv, hw⟩
    exact ⟨k, v, hv, rfl, hw⟩

theorem sorted_eq (h : Orders r d.keys) (h' : Orders r d'.keys) (he : ∀ k, (d.get? k).map f = (d'.get? k).map f) :
    (d.entries.insertionSort fun a b => r a.1 b.1).map (Prod.map id f) =
    (d'.entries.insertionSort fun a b => r a.1 b.1).map (Prod.map id f) := by
  have hp {d : FinMap κ ν} := (List.perm_insertionSort (fun a b => r a.1 b.1) d.entries).map (Prod.map id f)
  have hs {d : FinMap κ ν} (h : Orders r d.keys) :
      ((d.entries.insertionSort fun a b => r a.1 b.1).map (Prod.map id f)).Pairwise fun a b => r a.1 b.1 :=
    List.pairwise_map.mpr (pairwise_sorted h)
  have hperm : (d.entries.map (Prod.map id f)).Perm (d'.entries.map (Prod.map id f)) := by
    refine (List.perm_ext_iff_of_nodup nodup_entries_map nodup_entries_map).mpr fun (k, w) => ?_
    rw [mem_entries_map_iff, mem_entries_map_iff, he]
  refine List.Perm.eq_of_pairwise ?_ (hs h) (hs h') (hp.trans <| hperm.trans hp.symm)
  intro (a, v) (b, w) ha hb hab hba
  have ha := mem_entries_map_iff.mp <| hp.mem_iff.mp ha
  have hb := (he b).trans <| mem_entries_map_iff.mp <| hp.mem_iff.mp hb
  have hk {k w} (h : (d.get? k).map f = some w) : k ∈ d.keys := by
    have ⟨v, hv, _⟩ := Option.map_eq_some_iff.mp h
    exact mem_keys_iff.mpr (hv ▸ rfl)
  obtain rfl : a = b := h.antisymm _ (hk ha) _ (hk hb) hab hba
  rw [Option.some.inj <| ha.symm.trans hb]

end

end FinMap
