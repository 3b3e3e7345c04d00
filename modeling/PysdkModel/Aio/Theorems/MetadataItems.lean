import PysdkModel.Aio.MetadataItems
import PysdkModel.Aio.Theorems.Headers
import PysdkModel.Lib.Except
import Mathlib.Data.List.TakeWhile

namespace Aio

def isAscii (c : CodePoint) : Bool :=
  c.val < 0x80

structure AsciiCaseMap extends CaseMap where
  ascii : ∀ t : Text, t.all isAscii → lower t = t.map CaseMap.lowerAscii

namespace AsciiCaseMap

def basic : AsciiCaseMap :=
  { CaseMap.ascii with ascii := fun _ _ => rfl }

theorem isLowerAscii_iff {c : CodePoint} : isLowerAscii c ↔ c.val < 0x80 ∧ ¬(0x41 ≤ c.val ∧ c.val ≤ 0x5A) := by
  simp only [isLowerAscii, Bool.and_eq_true, Bool.not_eq_true', ← Bool.not_eq_true, decide_eq_true_eq]

theorem isLowerAscii_lowerAscii {c : CodePoint} (h : isAscii c) : isLowerAscii (CaseMap.lowerAscii c) := by
  have hc : c.val < 0x80 := of_decide_eq_true h
  rw [isLowerAscii_iff, CaseMap.lowerAscii]
  split
  case isTrue hl =>
    rw [CodePoint.val_ofNat (by omega)]
    omega
  case isFalse hl => exact ⟨hc, hl⟩

theorem isLowerAscii_lower (C : AsciiCaseMap) {t : Text} (h : t.all isAscii) : (C.lower t).all isLowerAscii := by
  rw [C.ascii t h, List.all_map]
  exact List.all_eq_true.mpr fun c hc => isLowerAscii_lowerAscii (List.all_eq_true.mp h c hc)

end AsciiCaseMap

theorem isAscii_of_isLowerAscii {t : Text} (h : t.all isLowerAscii) : t.all isAscii := by
  refine List.all_eq_true.mpr fun c hc => ?_
  have hl := List.all_eq_true.mp h c hc
  simp only [isLowerAscii, Bool.and_eq_true] at hl
  exact hl.1

namespace Argument

def key? (value : Argument) : Option Text :=
  match (value.iterate []).items with
  | str k :: _ => some k
  | _ => none

def keys (value : Argument) : List Text :=
  (value.iterate []).items.filterMap key?

def isStr : Argument → Bool
  | str _ => true
  | _ => false

end Argument

namespace ItemsOp

def keys : ItemsOp → List Text
  | add key _ => [key]
  | insert _ value => value.key?.toList
  | append value => value.key?.toList
  | setItem (.int _) value => value.key?.toList
  | setItem (.slice _) value => value.keys
  | setItem (.str key) _ => [key]
  | setItem .other _ => []
  | deleteItem (.str key) => [key]
  | deleteItem _ => []

def AsciiKeys (op : ItemsOp) : Prop :=
  ∀ key ∈ op.keys, key.all isAscii

end ItemsOp

namespace Contents

variable {C : AsciiCaseMap} {md md' : Contents} {key : Text} {value : Argument} {op : ItemsOp}

def IsLower (md : Contents) : Prop :=
  ∀ e ∈ md, e.1.all isLowerAscii

theorem isLower_append (h : md.IsLower) (hk : key.all isAscii) (value : Argument) :
    IsLower (md ++ [(C.lower key, value)]) := by
  intro e he
  rcases List.mem_append.mp he with he | he
  · exact h e he
  · rw [List.mem_singleton.mp he]
    exact C.isLowerAscii_lower hk

theorem isLower_deleteKey (h : md.IsLower) : IsLower (deleteKey C.toCaseMap md key) :=
  fun e he => h e (List.mem_filter.mp he).1

theorem key?_of_lowerOf {first : Argument} {k : Text} (hs : value.subscript md 0 = .ok first)
    (hl : lowerOf C.toCaseMap first = .ok k) : ∃ t, value.key? = some t ∧ k = C.lower t := by
  cases first
  case str t =>
    cases hl
    refine ⟨t, ?_, rfl⟩
    cases value
    case str u => cases u <;> cases hs; rfl
    case tuple u => cases u <;> cases hs; rfl
    case list u => cases u <;> cases hs; rfl
    case iterable => cases hs
    case object => cases hs
    case this => cases md <;> cases hs
  all_goals cases hl

theorem insert_eq_ok {i : Int} (h : insert C.toCaseMap md i value = .ok md') :
    ∃ k v, value.key? = some k ∧ md' = Sequence.insertAt md i (C.lower k, v) := by
  obtain ⟨first, hs, h⟩ := Except.bind_eq_ok_iff.mp h
  obtain ⟨k, hk, h⟩ := Except.bind_eq_ok_iff.mp h
  obtain ⟨v, _, h⟩ := Except.bind_eq_ok_iff.mp h
  cases h
  obtain ⟨t, ht, rfl⟩ := key?_of_lowerOf hs hk
  exact ⟨t, v, ht, rfl⟩

theorem append_pair (k s : Text) :
    append C.toCaseMap md (.tuple [.str k, .str s]) = .ok (md ++ [(C.lower k, .str s)]) :=
  congrArg Except.ok Sequence.insertAt_length

theorem isLower_insert {i : Int} (h : md.IsLower) (hk : ∀ k ∈ value.key?.toList, k.all isAscii)
    (hi : insert C.toCaseMap md i value = .ok md') : md'.IsLower := by
  obtain ⟨k, v, hv, rfl⟩ := insert_eq_ok hi
  intro e he
  rcases Sequence.mem_of_mem_insertAt he with rfl | he
  · exact C.isLowerAscii_lower (hk k (by simp [hv]))
  · exact h e he

theorem key?_of_strPair? {k v : Text} (h : value.strPair? = some (k, v)) : value.key? = some k := by
  unfold Argument.strPair? at h
  split at h
  case h_1 => cases h; rfl
  case h_2 => cases h

theorem isLower_setIndex {i : Int} (h : md.IsLower) (hk : ∀ k ∈ value.key?.toList, k.all isAscii)
    (hi : setIndex C.toCaseMap md i value = .ok md') : md'.IsLower := by
  simp only [setIndex] at hi
  split at hi
  case h_1 => cases hi
  case h_2 k v hp =>
    split at hi
    case h_1 => cases hi
    case h_2 hs =>
      cases hi
      intro e he
      rcases Sequence.mem_of_mem_setItem? hs he with he | rfl
      · exact h e he
      · exact C.isLowerAscii_lower (hk k (by simp [key?_of_strPair? hp]))

theorem isAscii_of_mem_iterate (h : md.IsLower) (hk : ∀ k ∈ value.keys, k.all isAscii) {item : Argument}
    (hi : item ∈ (value.iterate md).items) {k : Text} (hik : item.key? = some k) : k.all isAscii := by
  have hmem (hv : item ∈ (value.iterate []).items) : k ∈ value.keys := List.mem_filterMap.mpr ⟨item, hv, hik⟩
  cases value
  case this =>
    obtain ⟨e, he, rfl⟩ := List.mem_map.mp hi
    cases hik
    exact isAscii_of_isLowerAscii (h e he)
  case object => cases hi
  all_goals exact hk k (hmem hi)

theorem isLower_setSlice {s : Slice} (h : md.IsLower) (hk : ∀ k ∈ value.keys, k.all isAscii)
    (hs : setSlice C.toCaseMap md s value = .ok md') : md'.IsLower := by
  obtain ⟨entries, he, hs⟩ := Except.bind_eq_ok_iff.mp hs
  split at hs
  case h_1 => cases hs
  split at hs
  case h_1 => cases hs
  case h_2 ha =>
    cases hs
    intro e hm
    rcases Slice.mem_of_mem_assign? ha hm with hm | hm
    case inl => exact h e hm
    obtain ⟨item, hi, hie⟩ := (Except.mapM_eq_ok_iff.mp he).exists_left hm
    simp only [entry] at hie
    split at hie
    case h_1 => cases hie
    case h_2 k v hp =>
      cases hie
      exact C.isLowerAscii_lower (isAscii_of_mem_iterate h hk hi (key?_of_strPair? hp))

def leading (values : List Argument) : List Argument :=
  values.takeWhile Argument.isStr

theorem appendEach_eq (C : AsciiCaseMap) (key : Text) (error : Option ItemsError) (md : Contents)
    (values : List Argument) :
    (appendEach C.toCaseMap key error md values).contents = md ++ (leading values).map (C.lower key, ·) ∧
      ((appendEach C.toCaseMap key error md values).error = none ↔ error = none ∧ ∀ v ∈ values, v.isStr) := by
  induction values generalizing md with
  | nil => simp [appendEach, leading]
  | cons v values ih =>
    cases v
    case str s =>
      rw [appendEach, append_pair]
      obtain ⟨hc, he⟩ := ih (md ++ [(C.lower key, .str s)])
      refine ⟨hc.trans ?_, he.trans ?_⟩
      · simp [leading, List.takeWhile_cons, Argument.isStr]
      · simp [Argument.isStr]
    all_goals exact ⟨by simp [appendEach, leading, Argument.isStr], by simp [appendEach, Argument.isStr]⟩

def given (C : AsciiCaseMap) (md : Contents) (key : Text) (value : Argument) : Iteration :=
  assigned (md.deleteKey C.toCaseMap key) value

theorem deleteKey_lower : deleteKey C.toCaseMap md (C.lower key) = deleteKey C.toCaseMap md key := by
  simp only [deleteKey, C.idem]

theorem setKey_eq (C : AsciiCaseMap) (md : Contents) (key : Text) (value : Argument) :
    (setKey C.toCaseMap md key value).contents =
        md.deleteKey C.toCaseMap key ++ (leading (given C md key value).items).map (C.lower key, ·) ∧
      ((setKey C.toCaseMap md key value).error = none ↔
        (given C md key value).error = none ∧ ∀ v ∈ (given C md key value).items, v.isStr) := by
  have h := appendEach_eq C (C.lower key) (given C md key value).error (md.deleteKey C.toCaseMap key)
    (given C md key value).items
  rw [C.idem] at h
  simp only [setKey, deleteKey_lower]
  exact h

theorem isLower_setKey (h : md.IsLower) (hk : key.all isAscii) :
    (setKey C.toCaseMap md key value).contents.IsLower := by
  rw [(setKey_eq C md key value).1]
  intro e he
  rcases List.mem_append.mp he with he | he
  · exact isLower_deleteKey h e he
  · obtain ⟨v, _, rfl⟩ := List.mem_map.mp he
    exact C.isLowerAscii_lower hk

theorem isLower_update {result : Except ItemsError Contents} (h : md.IsLower)
    (hr : ∀ {md'}, result = .ok md' → md'.IsLower) : (update md result).contents.IsLower := by
  cases result
  case ok md' => exact hr rfl
  case error e => exact h

theorem isLower_run (h : md.IsLower) (hk : op.AsciiKeys) : (op.run C.toCaseMap md).contents.IsLower := by
  cases op
  case add key value => exact isLower_append h (hk key (List.mem_singleton_self _)) value
  case insert i value => exact isLower_update h (isLower_insert h hk)
  case append value => exact isLower_update h (isLower_insert h hk)
  case setItem index value =>
    cases index
    case int i => exact isLower_update h (isLower_setIndex h hk)
    case slice s => exact isLower_update h (isLower_setSlice h hk)
    case str key => exact isLower_setKey h (hk key (List.mem_singleton_self _))
    case other => exact h
  case deleteItem index =>
    cases index
    case int i =>
      simp only [ItemsOp.run, deleteItem]
      split
      case h_1 => exact h
      case h_2 hd => exact fun e he => h e (Sequence.mem_of_mem_deleteItem? hd he)
    case slice s =>
      simp only [ItemsOp.run, deleteItem]
      split
      case h_1 => exact h
      case h_2 hd => exact fun e he => h e (Slice.mem_of_mem_delete? hd he)
    case str key => exact isLower_deleteKey h
    case other => exact h

theorem key?_of_unpack {k : Text} {v : Argument} (h : value.unpack = .ok (.str k, v)) : value.key? = some k := by
  simp only [Argument.unpack] at h
  split at h
  case h_1 hi =>
    cases h
    simp [Argument.key?, hi]
  all_goals cases h

theorem isLower_construct {initial : Option Argument} (hk : ∀ value ∈ initial, ∀ k ∈ value.keys, k.all isAscii)
    (h : construct C.toCaseMap initial = .ok md) : md.IsLower := by
  cases initial
  case none =>
    cases h
    exact fun e he => absurd he List.not_mem_nil
  case some value =>
    obtain ⟨pairs, hp, h⟩ := Except.bind_eq_ok_iff.mp h
    split at h
    case h_1 => cases h
    cases h
    intro e he
    obtain ⟨⟨k, v⟩, hm, he⟩ := List.mem_filterMap.mp he
    split at he
    case h_2 => cases he
    case h_1 t u hkv =>
      cases he
      cases hkv
      obtain ⟨item, hi, hu⟩ := (Except.mapM_eq_ok_iff.mp hp).exists_left hm
      exact C.isLowerAscii_lower (hk value rfl t (List.mem_filterMap.mpr ⟨item, hi, key?_of_unpack hu⟩))

def Reachable (C : AsciiCaseMap) (md : Contents) : Prop :=
  ∃ initial start, (∀ value ∈ initial, ∀ k ∈ Argument.keys value, k.all isAscii) ∧
    construct C.toCaseMap initial = .ok start ∧
    Machine.Reaches (fun md op => some (ItemsOp.run C.toCaseMap md op).contents) (fun _ op => op.AsciiKeys) start md

theorem Reachable.isLower (h : md.Reachable C) : md.IsLower := by
  obtain ⟨initial, start, hk, hc, hr⟩ := h
  refine hr.invariant (I := IsLower) (fun hl ha e => ?_) (isLower_construct hk hc)
  cases e
  exact isLower_run hl ha

def others (C : AsciiCaseMap) (md : Contents) (key : Text) : Contents :=
  md.filter fun e => e.1 ≠ C.lower key

-- The collection is an ordered multimap, and assignments are atomic.
structure Multimap (C : AsciiCaseMap) (md : Contents) (op : ItemsOp) : Prop where
  lower : (op.run C.toCaseMap md).contents.IsLower
  assign : ∀ {key value}, op = .setItem (.str key) value → (op.run C.toCaseMap md).error = none →
    (∀ spelling, C.lower spelling = C.lower key →
      (op.run C.toCaseMap md).contents.values C.toCaseMap spelling = (given C md key value).items) ∧
    (op.run C.toCaseMap md).contents.others C key = md.others C key
  delete : ∀ {key}, op = .deleteItem (.str key) → op.run C.toCaseMap md = ⟨md.others C key, none⟩
  atomic : ∀ {index value}, op = .setItem index value → (op.run C.toCaseMap md).error ≠ none →
    (op.run C.toCaseMap md).contents = md

-- An assignment to a key gets through, or the entries of the key are the last ones and have the values that the
-- assignment appends before it raises.
def Undisturbed (C : AsciiCaseMap) (md : Contents) (op : ItemsOp) : Prop :=
  ∀ {key value}, op = .setItem (.str key) value →
    ((given C md key value).error = none ∧ ∀ v ∈ (given C md key value).items, v.isStr) ∨
      md = md.others C key ++ (leading (given C md key value).items).map (C.lower key, ·)

attribute [local simp] Function.comp_def

theorem values_setKey (h : ∀ v ∈ (given C md key value).items, v.isStr) {spelling : Text}
    (hs : C.lower spelling = C.lower key) :
    (setKey C.toCaseMap md key value).contents.values C.toCaseMap spelling = (given C md key value).items := by
  have hl : leading (given C md key value).items = (given C md key value).items :=
    List.takeWhile_eq_self_iff.mpr h
  have hd : (md.deleteKey C.toCaseMap key).filter (fun e => e.1 = C.lower key) = [] := by
    simp [deleteKey, List.filter_filter]
  simp only [values, (setKey_eq C md key value).1, hl, hs, List.filter_append, hd, List.nil_append, List.filter_map]
  simp

theorem others_setKey : (setKey C.toCaseMap md key value).contents.others C key = md.others C key := by
  simp only [others, (setKey_eq C md key value).1, deleteKey, List.filter_append, List.filter_filter, List.filter_map]
  simp

-- The metadata of a request consists of strings. On these the operations are those of `Metadata`.
def ofMetadata (m : Metadata) : Contents :=
  m.map fun e => (e.1, .str e.2)

theorem values_ofMetadata {m : Metadata} :
    (ofMetadata m).values C.toCaseMap key = (m.values C.toCaseMap key).map .str := by
  simp [values, ofMetadata, Metadata.values, List.filter_map]

theorem deleteItem_ofMetadata {m : Metadata} :
    (ofMetadata m).deleteItem C.toCaseMap (.str key) = ⟨ofMetadata (m.delete C.toCaseMap key), none⟩ := by
  simp [deleteItem, deleteKey, ofMetadata, Metadata.delete, List.filter_map]

theorem setItem_ofMetadata {m : Metadata} {text : Text} :
    (ofMetadata m).setItem C.toCaseMap (.str key) (.str text) = ⟨ofMetadata (m.set C.toCaseMap key text), none⟩ := by
  have hd : deleteKey C.toCaseMap (ofMetadata m) (C.lower key) = ofMetadata (m.delete C.toCaseMap key) := by
    simp [deleteKey, ofMetadata, Metadata.delete, List.filter_map, C.idem]
  simp only [setItem, setKey, hd, assigned, appendEach, append_pair, C.idem]
  simp [ofMetadata, Metadata.set, Metadata.add]

theorem error_update {result : Except ItemsError Contents} (h : (update md result).error ≠ none) :
    (update md result).contents = md := by
  cases result
  case ok => exact absurd rfl h
  case error e => rfl

theorem multimap_iff (h : md.Reachable C) (op : ItemsOp) (hk : op.AsciiKeys) :
    Multimap C md op ↔ Undisturbed C md op := by
  constructor
  · rintro hm key value rfl
    by_cases he : (setKey C.toCaseMap md key value).error = none
    · exact .inl ((setKey_eq C md key value).2.mp he)
    · exact .inr ((hm.atomic rfl he).symm.trans (setKey_eq C md key value).1)
  · intro hu
    refine ⟨isLower_run h.isLower hk, ?_, ?_, ?_⟩
    · rintro key value rfl he
      have hs := ((setKey_eq C md key value).2.mp he).2
      exact ⟨fun spelling hsp => values_setKey hs hsp, others_setKey⟩
    · rintro key rfl
      rfl
    · rintro index value rfl he
      cases index
      case int i => exact error_update he
      case slice s => exact error_update he
      case other => rfl
      case str key =>
        rcases hu rfl with hc | hc
        · exact absurd ((setKey_eq C md key value).2.mpr hc) he
        · exact (setKey_eq C md key value).1.trans hc.symm

def single : Contents :=
  [([0x6B], .str [0x61])]

theorem single_reachable : single.Reachable .basic := by
  refine ⟨some (.list [.tuple [.str [0x4B], .str [0x61]]]), single, ?_, rfl, .refl⟩
  rintro value ⟨⟩ k hk
  rw [List.mem_singleton.mp hk]
  rfl

-- `metadata["k"] = ["b", "c"]`
theorem single_multimap :
    Multimap .basic single (.setItem (.str [0x6B]) (.list [.str [0x62], .str [0x63]])) ↔
      Undisturbed .basic single (.setItem (.str [0x6B]) (.list [.str [0x62], .str [0x63]])) := by
  refine multimap_iff single_reachable _ fun k hk => ?_
  rw [List.mem_singleton.mp hk]
  rfl

-- `metadata["k"] = ["b", None]` raises a `TypeError`, and the value is now `["b"]`.
theorem single_overwritten :
    single.Reachable .basic ∧ ItemsOp.AsciiKeys (.setItem (.str [0x6B]) (.list [.str [0x62], .object])) ∧
      ¬Multimap .basic single (.setItem (.str [0x6B]) (.list [.str [0x62], .object])) := by
  refine ⟨single_reachable, fun k hk => ?_, fun hm => ?_⟩
  · rw [List.mem_singleton.mp hk]
    rfl
  · have ha := hm.atomic rfl (Option.some_ne_none _)
    cases ha

end Contents

end Aio
